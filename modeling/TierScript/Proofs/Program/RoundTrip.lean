import TierScript.Proofs.Program.Writing

/-!
# Parsing inverts writing

The canonical text of every program in shape, whose names are words that are not reserved, is a
program again, the same up to the places of its parts (`parse_text_of_shaped`). The tokens of the
layout of each construct are shown to spell that construct by the rules of the grammar.
-/

namespace TierScript

open Parse (Item outPositions)

variable {ts : List Token}

/-! ## Expressions -/

theorem Term.bareAll_eq (ts : List Term) : Term.bareAll ts = ts.map Term.bare := by
  induction ts with
  | nil => rw [Term.bareAll, List.map_nil]
  | cons t ts ih => rw [Term.bareAll, List.map_cons, ih]

theorem spells_var {v : Var} (h : Reads ts v.pieces) : Spells ts (.tierVar v) := by
  obtain ⟨w, us, rfl, hw, h⟩ := h.fixed rfl
  obtain ⟨d, us, rfl, hd, h⟩ := h.fixed rfl
  obtain ⟨n, us, rfl, hn, hname, h⟩ := h.name
  obtain rfl := h.nil
  have hspell := Spells.tierDotName hw hd hn
  rwa [hname] at hspell

theorem spells_signed {n : Int64} (h : Reads ts (signed n.toInt)) :
    Spells ts (.operand (.number n) false) := by
  have hmagnitude {t : Token} (ht : t.lexeme = Nat.toDigits 10 n.toInt.natAbs) :
      t.magnitude = n.toInt.natAbs := by
    rw [Token.magnitude, ht, Nat.ofDigitChars_toDigits (by decide) (by decide)]
  unfold signed at h
  split at h
  · obtain ⟨m, us, rfl, hm, h⟩ := h.fixed rfl
    obtain ⟨t, us, rfl, ht, hl, h⟩ := h.cons rfl
    obtain rfl := h.nil
    refine .negativeNumber hm ht ?_
    rw [hmagnitude hl]
    omega
  · obtain ⟨t, us, rfl, ht, hl, h⟩ := h.cons rfl
    obtain rfl := h.nil
    refine .number ht ?_
    rw [hmagnitude hl]
    omega

/-- A mark between spaces is one token. -/
theorem Reads.spaced {k : Kind} {ps : List Piece} (h : Reads ts (spaced k ++ ps))
    (hk : k.isTrivia = false) : ∃ t us, ts = t :: us ∧ t.kind = k ∧ Reads us ps :=
  h.space.fixed hk

theorem ArithOp.isTrivia_kind (op : ArithOp) : op.kind.isTrivia = false := by
  cases op <;> rfl

theorem RelOp.isTrivia_kind (op : RelOp) : op.kind.isTrivia = false := by
  cases op <;> rfl

theorem BoolOp.isTrivia_kind (op : BoolOp) : op.kind.isTrivia = false := by
  cases op <;> rfl

mutual

theorem Expr.spells : (e : Expr) → e.shaped isProperName = true → ∀ {ts}, Reads ts e.pieces →
    ∃ e', Spells ts (.expr e') ∧ e'.bare = e.bare
  | ⟨[], ops, _⟩, h, _, _ => by simp [Expr.shaped] at h
  | ⟨t :: terms, ops, _⟩, h, ts, hreads => by
    simp only [Expr.shaped, Term.shapedAll, List.length_cons, Bool.and_eq_true, beq_iff_eq,
      Nat.add_right_cancel_iff] at h
    obtain ⟨hlength, hterm, hterms⟩ := h
    obtain ⟨us, vs, rfl, hus, hvs⟩ := hreads.append
    obtain ⟨t', ht', hbare⟩ := Term.spells t hterm hus
    obtain ⟨rest, hrest, hops, hbares⟩ := Term.spells_more terms ops hlength hterms hvs
    refine ⟨_, .expr ht' hrest, ?_⟩
    simp only [Expr.bare, Term.bareAll, Term.bareAll_eq, hbare, hops, hbares]

theorem Term.spells : (t : Term) → t.shaped isProperName = true → ∀ {ts}, Reads ts t.pieces →
    ∃ t', Spells ts (.term t') ∧ t'.bare = t.bare
  | ⟨kind, true, negate, _⟩, h, ts, hreads => by
    rw [Term.shaped] at h
    obtain ⟨n, us, rfl, hn, hus⟩ := hreads.fixed rfl
    obtain ⟨kind', hkind, hbare⟩ := Term.Kind.spells kind negate h hus
    exact ⟨_, .invertedTerm hn hkind, by rw [Term.bare, Term.bare, hbare]⟩
  | ⟨kind, false, negate, _⟩, h, ts, hreads => by
    rw [Term.shaped] at h
    obtain ⟨kind', hkind, hbare⟩ := Term.Kind.spells kind negate h hreads
    exact ⟨_, .term hkind, by rw [Term.bare, Term.bare, hbare]⟩

theorem Term.Kind.spells : (kind : Term.Kind) → (negate : Bool) →
    kind.shaped isProperName negate = true → ∀ {ts}, Reads ts (kind.pieces negate) →
    ∃ kind', Spells ts (.operand kind' negate) ∧ kind'.bare = kind.bare
  | .number n, negate, h, ts, hreads => by
    obtain rfl : negate = false := by simpa [Term.Kind.shaped] using h
    exact ⟨_, spells_signed hreads, rfl⟩
  | .str s, negate, h, ts, hreads => by
    obtain rfl : negate = false := by simpa [Term.Kind.shaped] using h
    obtain ⟨t, us, rfl, ht, hl, hreads⟩ := hreads.cons rfl
    obtain rfl := hreads.nil
    have hspell := Spells.str ht
    rw [hl, Piece.chars, Literal.decode_encode, String.ofList_toList] at hspell
    exact ⟨_, hspell, rfl⟩
  | .bool true, negate, h, ts, hreads => by
    obtain rfl : negate = false := by simpa [Term.Kind.shaped] using h
    obtain ⟨t, us, rfl, ht, hreads⟩ := hreads.fixed rfl
    obtain rfl := hreads.nil
    exact ⟨_, .trueWord ht, rfl⟩
  | .bool false, negate, h, ts, hreads => by
    obtain rfl : negate = false := by simpa [Term.Kind.shaped] using h
    obtain ⟨t, us, rfl, ht, hreads⟩ := hreads.fixed rfl
    obtain rfl := hreads.nil
    exact ⟨_, .falseWord ht, rfl⟩
  | .null, negate, h, ts, hreads => by
    obtain rfl : negate = false := by simpa [Term.Kind.shaped] using h
    obtain ⟨t, us, rfl, ht, hreads⟩ := hreads.fixed rfl
    obtain rfl := hreads.nil
    exact ⟨_, .nullWord ht, rfl⟩
  | .var v, true, _, ts, hreads => by
    obtain ⟨m, us, rfl, hm, hus⟩ := hreads.fixed rfl
    exact ⟨_, .negativeVar hm (.tierVar (spells_var hus)), rfl⟩
  | .var v, false, _, ts, hreads => ⟨_, .var (.tierVar (spells_var hreads)), rfl⟩
  | .group e, negate, h, ts, hreads => by
    simp only [Term.Kind.shaped, Bool.and_eq_true, Bool.not_eq_true'] at h
    obtain ⟨rfl, he⟩ := h
    obtain ⟨o, us, rfl, ho, hreads⟩ := hreads.fixed rfl
    obtain ⟨us, vs, rfl, hus, hreads⟩ := hreads.append
    obtain ⟨c, vs, rfl, hc, hreads⟩ := hreads.fixed rfl
    obtain rfl := hreads.nil
    obtain ⟨e', he', hbare⟩ := Expr.spells e he hus
    exact ⟨_, .group ho he' hc, by rw [Term.Kind.bare, Term.Kind.bare, hbare]⟩

theorem Term.spells_more : (terms : List Term) → (ops : List ArithOp) →
    terms.length = ops.length → Term.shapedAll isProperName terms = true → ∀ {ts},
    Reads ts (Term.morePieces ops terms) →
    ∃ rest, Spells ts (.operands rest) ∧ rest.map Prod.fst = ops ∧
      (rest.map Prod.snd).map Term.bare = terms.map Term.bare
  | [], [], _, _, ts, hreads => by
    obtain rfl := hreads.nil
    exact ⟨[], .noOperands, rfl, rfl⟩
  | [], _ :: _, hlength, _, _, _ => by cases hlength
  | _ :: _, [], hlength, _, _, _ => by cases hlength
  | t :: terms, op :: ops, hlength, h, ts, hreads => by
    rw [Term.shapedAll, Bool.and_eq_true] at h
    obtain ⟨o, us, rfl, ho, hus⟩ := hreads.spaced op.isTrivia_kind
    obtain ⟨vs, ws, rfl, hvs, hws⟩ := hus.append
    obtain ⟨t', ht', hbare⟩ := Term.spells t h.1 hvs
    obtain ⟨rest, hrest, hops, hbares⟩ :=
      Term.spells_more terms ops (Nat.succ.inj hlength) h.2 hws
    refine ⟨_, .operand (by rw [ho, op.arithOp?_kind]) ht' hrest, ?_, ?_⟩
    · rw [List.map_cons, hops]
    · rw [List.map_cons, List.map_cons, List.map_cons, hbares, hbare]

end

/-! ## Conditions -/

theorem Condition.spells {c : Condition} (h : c.shaped isProperName = true)
    (hreads : Reads ts c.pieces) : ∃ c', Spells ts (.cond c') ∧ c'.bare = c.bare := by
  obtain ⟨left, comparison, span⟩ := c
  obtain ⟨hleft, hright⟩ := Bool.and_eq_true_iff.mp h
  obtain ⟨us, vs, rfl, hus, hvs⟩ := hreads.append
  obtain ⟨left', hspell, hbare⟩ := left.spells hleft hus
  cases comparison with
  | none =>
    obtain rfl := hvs.nil
    rw [List.append_nil]
    exact ⟨_, .test hspell, by simp only [Condition.bare, hbare, Option.map_none]⟩
  | some r =>
    obtain ⟨op, right⟩ := r
    obtain ⟨o, vs, rfl, ho, hvs⟩ := hvs.spaced op.isTrivia_kind
    obtain ⟨right', hspell', hbare'⟩ := right.spells hright hvs
    refine ⟨_, .comparison hspell (by rw [ho, op.relOp?_kind]) hspell', ?_⟩
    simp only [Condition.bare, hbare, hbare', Option.map_some]

theorem Condition.spells_more {cs : List Condition} {ops : List BoolOp}
    (hlength : cs.length = ops.length) (h : cs.all (Condition.shaped isProperName) = true)
    (hreads : Reads ts (Condition.morePieces ops cs)) :
    ∃ rest, Spells ts (.moreConds rest) ∧ rest.map Prod.fst = ops ∧
      (rest.map Prod.snd).map Condition.bare = cs.map Condition.bare := by
  induction cs generalizing ops ts with
  | nil =>
    cases ops with
    | nil =>
      obtain rfl := hreads.nil
      exact ⟨[], .noConds, rfl, rfl⟩
    | cons op ops => cases hlength
  | cons c cs ih =>
    cases ops with
    | nil => cases hlength
    | cons op ops =>
      rw [List.all_cons, Bool.and_eq_true] at h
      obtain ⟨o, us, rfl, ho, hus⟩ := hreads.spaced op.isTrivia_kind
      obtain ⟨vs, ws, rfl, hvs, hws⟩ := hus.append
      obtain ⟨c', hc', hbare⟩ := c.spells h.1 hvs
      obtain ⟨rest, hrest, hops, hbares⟩ := ih (Nat.succ.inj hlength) h.2 hws
      refine ⟨_, .nextCond (by rw [ho, op.boolOp?_kind]) hc' hrest, ?_, ?_⟩
      · rw [List.map_cons, hops]
      · rw [List.map_cons, List.map_cons, List.map_cons, hbares, hbare]

theorem Conditions.spells {c : Conditions} (h : c.shaped isProperName = true)
    (hreads : Reads ts c.pieces) : ∃ c', Spells ts (.conds c') ∧ c'.bare = c.bare := by
  obtain ⟨items, ops, span⟩ := c
  obtain ⟨hlength, hitems⟩ := Bool.and_eq_true_iff.mp h
  cases items with
  | nil => simp at hlength
  | cons first rest =>
    rw [List.all_cons, Bool.and_eq_true] at hitems
    obtain ⟨us, vs, rfl, hus, hvs⟩ := hreads.append
    obtain ⟨first', hspell, hbare⟩ := first.spells hitems.1 hus
    obtain ⟨rest', hspells, hops, hbares⟩ :=
      Condition.spells_more (by simpa using hlength) hitems.2 hvs
    refine ⟨_, .conds hspell hspells, ?_⟩
    simp only [Conditions.bare, List.map_cons, hbare, hops, hbares]

/-! ## Calls and parameters -/

theorem spells_moreArguments {e : Expr} {args : List Expr}
    (h : ∀ x ∈ e :: args, x.shaped isProperName = true)
    (hreads : Reads ts (commas ((e :: args).map Expr.pieces) ++ [.fixed .closeParen])) :
    ∃ args', Spells ts (.moreArguments args') ∧
      args'.map Expr.bare = (e :: args).map Expr.bare := by
  induction args generalizing e ts with
  | nil =>
    obtain ⟨us, vs, rfl, hus, hvs⟩ := hreads.append
    obtain ⟨c, vs, rfl, hc, hvs⟩ := hvs.fixed rfl
    obtain rfl := hvs.nil
    obtain ⟨e', he', hbare⟩ := e.spells (h e List.mem_cons_self) hus
    exact ⟨_, .lastArgument he' hc, by simp [hbare]⟩
  | cons next args ih =>
    rw [List.forall_mem_cons] at h
    rw [List.map_cons, List.map_cons, commas, List.append_assoc] at hreads
    obtain ⟨us, vs, rfl, hus, hvs⟩ := hreads.append
    obtain ⟨c, vs, rfl, hc, hvs⟩ := hvs.fixed rfl
    obtain ⟨e', he', hbare⟩ := e.spells h.1 hus
    obtain ⟨args', hargs, hbares⟩ := ih h.2 hvs.space
    exact ⟨_, .nextArgument he' hc hargs, by rw [List.map_cons, hbares, hbare]; rfl⟩

theorem spells_arguments {args : List Expr} (h : ∀ x ∈ args, x.shaped isProperName = true)
    (hreads : Reads ts (commas (args.map Expr.pieces) ++ [.fixed .closeParen])) :
    ∃ args', Spells ts (.arguments args') ∧ args'.map Expr.bare = args.map Expr.bare := by
  cases args with
  | nil =>
    obtain ⟨c, us, rfl, hc, hus⟩ := Reads.fixed hreads rfl
    obtain rfl := hus.nil
    exact ⟨[], .noArguments hc, rfl⟩
  | cons e args =>
    obtain ⟨args', hargs, hbares⟩ := spells_moreArguments h hreads
    exact ⟨args', .someArguments hargs, hbares⟩

/-- The tokens of a call: its name, the opening parenthesis and its arguments. -/
theorem Call.spells {c : Call} (h : c.shaped isProperName = true) (hreads : Reads ts c.pieces) :
    ∃ n o us args, ts = n :: o :: us ∧ n.kind = .identifier ∧ n.text = c.name ∧
      o.kind = .openParen ∧ Spells us (.arguments args) ∧
      args.map Expr.bare = c.args.map Expr.bare := by
  obtain ⟨n, us, rfl, hn, hname, hus⟩ := hreads.name
  obtain ⟨o, us, rfl, ho, hus⟩ := hus.fixed rfl
  obtain ⟨args, hargs, hbares⟩ :=
    spells_arguments (List.all_eq_true.mp (Bool.and_eq_true_iff.mp h).2) hus
  exact ⟨n, o, us, args, rfl, hn, hname, ho, hargs, hbares⟩

theorem spells_moreParameters {x : Bool × String} {l : List (Bool × String)}
    (hreads : Reads ts (commas ((x :: l).map parameterPieces) ++ [.fixed .closeParen])) :
    Spells ts (.moreParameters (x :: l)) := by
  induction l generalizing x ts with
  | nil =>
    obtain ⟨out, p⟩ := x
    cases out with
    | false =>
      obtain ⟨n, us, rfl, hn, rfl, hus⟩ := Reads.name hreads
      obtain ⟨c, us, rfl, hc, hus⟩ := hus.fixed rfl
      obtain rfl := hus.nil
      exact .lastParameter hn hc
    | true =>
      obtain ⟨s, us, rfl, hs, hus⟩ := Reads.fixed (k := .star) hreads rfl
      obtain ⟨n, us, rfl, hn, rfl, htail⟩ := hus.name
      obtain ⟨c, us, rfl, hc, hend⟩ := htail.fixed rfl
      obtain rfl := hend.nil
      exact .lastOut hs hn hc
  | cons next l ih =>
    obtain ⟨out, p⟩ := x
    cases out with
    | false =>
      obtain ⟨n, us, rfl, hn, rfl, hus⟩ := Reads.name hreads
      obtain ⟨c, us, rfl, hc, hus⟩ := hus.fixed rfl
      exact .nextParameter hn hc (ih hus.space)
    | true =>
      obtain ⟨s, us, rfl, hs, hus⟩ := Reads.fixed (k := .star) hreads rfl
      obtain ⟨n, us, rfl, hn, rfl, htail⟩ := hus.name
      obtain ⟨c, us, rfl, hc, hrest⟩ := htail.fixed rfl
      exact .nextOut hs hn hc (ih hrest.space)

theorem spells_parameters {l : List (Bool × String)}
    (hreads : Reads ts (commas (l.map parameterPieces) ++ [.fixed .closeParen])) :
    Spells ts (.parameters l) := by
  cases l with
  | nil =>
    obtain ⟨c, us, rfl, hc, hus⟩ := Reads.fixed hreads rfl
    obtain rfl := hus.nil
    exact .noParameters hc
  | cons x l => exact .someParameters (spells_moreParameters hreads)

theorem map_snd_marked (outs : List Nat) (i : Nat) (params : List String) :
    (marked outs i params).map Prod.snd = params := by
  induction params generalizing i with
  | nil => rfl
  | cons p params ih => rw [marked, List.map_cons, ih]

/-- The positions of the marks are the positions that were marked. -/
theorem outPositions_marked {outs : List Nat} (hsorted : outs.Pairwise (· < ·)) {i : Nat}
    {params : List String} (hbound : ∀ k ∈ outs, k < i + params.length) :
    outPositions i (marked outs i params) = outs.filter (i ≤ ·) := by
  induction params generalizing i with
  | nil =>
    symm
    rw [marked, outPositions, List.filter_eq_nil_iff]
    intro k hk
    simpa using hbound k hk
  | cons p params ih =>
    have hrest := ih (i := i + 1) (by simpa [Nat.add_assoc, Nat.add_comm 1] using hbound)
    rw [marked, outPositions, hrest]
    clear ih hrest hbound
    induction hsorted with
    | nil => rfl
    | @cons o outs hlt _ ih => grind

theorem outPositions_marked_zero {params : List String} {outs : List Nat}
    (h : ascendingBelow params.length outs = true) :
    outPositions 0 (marked outs 0 params) = outs := by
  simp only [ascendingBelow, Bool.and_eq_true, decide_eq_true_eq, List.all_eq_true] at h
  rw [outPositions_marked h.1 (by simpa using h.2)]
  simp

/-! ## Statements and blocks -/

theorem Stmt.bareAll_eq (ss : List Stmt) : Stmt.bareAll ss = ss.map Stmt.bare := by
  induction ss with
  | nil => rw [Stmt.bareAll, List.map_nil]
  | cons s ss ih => rw [Stmt.bareAll, List.map_cons, ih]

theorem FnDef.bareAll_eq (fs : List FnDef) : FnDef.bareAll fs = fs.map FnDef.bare := by
  induction fs with
  | nil => rw [FnDef.bareAll, List.map_nil]
  | cons f fs ih => rw [FnDef.bareAll, List.map_cons, ih]

/-- Definitions and then statements make the block of these. -/
theorem Block.ofItems_append (fs : List FnDef) (ss : List Stmt) (span : Span) :
    Block.ofItems (fs.map Item.fn ++ ss.map Item.stmt) span = ⟨ss, fs, span⟩ := by
  have hstmts : (fs.map Item.fn ++ ss.map Item.stmt).filterMap Item.stmt? = ss := by
    simp [List.filterMap_append, List.filterMap_map, Function.comp_def, Item.stmt?]
  have hfns : (fs.map Item.fn ++ ss.map Item.stmt).filterMap Item.fn? = fs := by
    simp [List.filterMap_append, List.filterMap_map, Function.comp_def, Item.fn?]
  rw [Block.ofItems, hstmts, hfns]

/-- The tokens of the lines of a block spell items that make the block again. -/
def Block.Respelled (b : Block) (ts : List Token) : Prop :=
  ∃ l, Spells ts (.items l) ∧ ∀ span, (Block.ofItems l span).bare = b.bare

theorem spells_braced {b : Block} (h : ∀ {ts}, Reads ts b.lines → b.Respelled ts)
    (hreads : Reads ts b.braced) : ∃ b', Spells ts (.body b') ∧ b'.bare = b.bare := by
  rw [Block.braced_eq] at hreads
  obtain ⟨o, us, rfl, ho, hreads⟩ := hreads.fixed rfl
  obtain ⟨us, vs, rfl, hlines, hreads⟩ := hreads.newline.append
  obtain ⟨c, vs, rfl, hc, hreads⟩ := hreads.fixed rfl
  obtain rfl := hreads.nil
  obtain ⟨l, hl, hbare⟩ := h hlines
  exact ⟨_, .body ho hl hc, hbare _⟩

/-- A word, a condition in parentheses and the rest of a statement. -/
theorem Reads.tested {k : Kind} {c : Conditions} {ps : List Piece}
    (h : Reads ts (.fixed k :: .space :: .fixed .openParen ::
      (c.pieces ++ .fixed .closeParen :: .space :: ps)))
    (hk : k.isTrivia = false) (hc : c.shaped isProperName = true) :
    ∃ w o us p vs c', ts = w :: o :: (us ++ p :: vs) ∧ w.kind = k ∧ o.kind = .openParen ∧
      Spells us (.conds c') ∧ c'.bare = c.bare ∧ p.kind = .closeParen ∧ Reads vs ps := by
  obtain ⟨w, us, rfl, hw, h⟩ := h.fixed hk
  obtain ⟨o, us, rfl, ho, h⟩ := h.space.fixed rfl
  obtain ⟨us, vs, rfl, hus, h⟩ := h.append
  obtain ⟨p, vs, rfl, hp, h⟩ := h.fixed rfl
  obtain ⟨c', hspell, hbare⟩ := c.spells hc hus
  exact ⟨w, o, us, p, vs, c', rfl, hw, ho, hspell, hbare, hp, h.space⟩

mutual

theorem Block.spells : (b : Block) → b.shaped isProperName = true → ∀ {ts}, Reads ts b.lines →
    b.Respelled ts
  | ⟨stmts, functions, _⟩, h, ts, hreads => by
    rw [Block.shaped, Bool.and_eq_true] at h
    obtain ⟨us, vs, rfl, hus, hvs⟩ := hreads.append
    obtain ⟨ss, hss, hstmts⟩ := Stmt.spells_all stmts h.1 hvs
    obtain ⟨fs, hfs, hfunctions⟩ := FnDef.spells_all functions h.2 hus hss
    refine ⟨_, hfs, fun span => ?_⟩
    rw [Block.ofItems_append]
    simp only [Block.bare, Stmt.bareAll_eq, FnDef.bareAll_eq, hstmts, hfunctions]

theorem FnDef.spells : (f : FnDef) → f.shaped isProperName = true → ∀ {ts}, Reads ts f.pieces →
    ∃ f', Spells ts (.item (.fn f') false) ∧ f'.bare = f.bare
  | ⟨fn, params, outs, body, _⟩, h, ts, hreads => by
    simp only [FnDef.shaped, Bool.and_eq_true] at h
    obtain ⟨⟨-, houts⟩, hbody⟩ := h
    obtain ⟨f, us, rfl, hf, hreads⟩ := hreads.fixed rfl
    obtain ⟨n, us, rfl, hn, rfl, htail⟩ := hreads.space.name
    obtain ⟨o, us, rfl, ho, hreads⟩ := htail.fixed rfl
    rw [List.append_cons] at hreads
    obtain ⟨ps, us, rfl, hps, hreads⟩ := hreads.append
    obtain ⟨is, us, rfl, his, hreads⟩ := hreads.newline.append
    obtain ⟨e, us, rfl, he, hreads⟩ := hreads.fixed rfl
    obtain ⟨g, us, rfl, hg, hreads⟩ := hreads.space.fixed rfl
    obtain rfl := hreads.nil
    obtain ⟨l, hl, hbare⟩ := Block.spells body hbody his
    refine ⟨_, .fnEndFn hf hn ho (spells_parameters hps) hl he hg, ?_⟩
    simp only [FnDef.bare, map_snd_marked, outPositions_marked_zero houts, hbare]

theorem Stmt.spells : (s : Stmt) → s.shaped isProperName = true → ∀ {ts}, Reads ts s.pieces →
    ∃ s', Spells ts (.item (.stmt s') false) ∧ s'.bare = s.bare
  | .block body, h, ts, hreads => by
    obtain ⟨b', hb', hbare⟩ := spells_braced (Block.spells body h) hreads
    exact ⟨_, .block hb', by rw [Stmt.bare, Stmt.bare, hbare]⟩
  | .assign target value _, h, ts, hreads => by
    rw [Stmt.shaped, Bool.and_eq_true] at h
    obtain ⟨us, vs, rfl, hus, hvs⟩ := hreads.append
    obtain ⟨q, vs, rfl, hq, hvs⟩ := hvs.spaced rfl
    obtain ⟨value', hvalue, hbare⟩ := value.spells h.2 hvs
    exact ⟨_, .assign (spells_var hus) hq hvalue, by rw [Stmt.bare, Stmt.bare, hbare]⟩
  | .ifElse condition body none _, h, ts, hreads => by
    rw [Stmt.shaped, Bool.and_eq_true] at h
    obtain ⟨w, o, us, p, vs, c', rfl, hw, ho, hc, hcbare, hp, hvs⟩ := hreads.tested rfl h.1
    obtain ⟨b', hb', hbare⟩ := spells_braced (Block.spells body h.2) hvs
    have hif := Spells.ifStmt hw ho hc hp hb' .noElse
    rw [List.append_nil] at hif
    exact ⟨_, .ifItem hif, by simp only [Stmt.bare, hcbare, hbare]⟩
  | .ifElse condition body (some otherwise) _, h, ts, hreads => by
    simp only [Stmt.shaped, Bool.and_eq_true] at h
    obtain ⟨w, o, us, p, vs, c', rfl, hw, ho, hc, hcbare, hp, hvs⟩ := hreads.tested rfl h.1.1
    obtain ⟨bs, rs, rfl, hbs, hrs⟩ := hvs.append
    obtain ⟨e, rs, rfl, he, hrs⟩ := hrs.space.fixed rfl
    obtain ⟨b', hb', hbare⟩ := spells_braced (Block.spells body h.1.2) hbs
    obtain ⟨b'', hb'', hbare'⟩ := spells_braced (Block.spells otherwise h.2) hrs.space
    refine ⟨_, .ifItem (.ifStmt hw ho hc hp hb' (.elseBody he hb'')), ?_⟩
    simp only [Stmt.bare, hcbare, hbare, hbare']
  | .whileLoop condition body _, h, ts, hreads => by
    rw [Stmt.shaped, Bool.and_eq_true] at h
    obtain ⟨w, o, us, p, vs, c', rfl, hw, ho, hc, hcbare, hp, hvs⟩ := hreads.tested rfl h.1
    obtain ⟨b', hb', hbare⟩ := spells_braced (Block.spells body h.2) hvs
    exact ⟨_, .whileLoop hw ho hc hp hb', by simp only [Stmt.bare, hcbare, hbare]⟩
  | .forLoop dest src body _, h, ts, hreads => by
    simp only [Stmt.shaped, Bool.and_eq_true] at h
    obtain ⟨w, us, rfl, hw, hreads⟩ := hreads.fixed rfl
    obtain ⟨o, us, rfl, ho, hreads⟩ := hreads.space.fixed rfl
    obtain ⟨ds, us, rfl, hds, hreads⟩ := hreads.append
    obtain ⟨m, us, rfl, hm, hreads⟩ := hreads.fixed rfl
    obtain ⟨ss, us, rfl, hss, hreads⟩ := hreads.space.append
    obtain ⟨p, us, rfl, hp, hreads⟩ := hreads.fixed rfl
    obtain ⟨dest', hdest, hdbare⟩ := dest.spells h.1.1 hds
    obtain ⟨src', hsrc, hsbare⟩ := src.spells h.1.2 hss
    obtain ⟨b', hb', hbare⟩ := spells_braced (Block.spells body h.2) hreads.space
    exact ⟨_, .forLoop hw ho hdest hm hsrc hp hb', by simp only [Stmt.bare, hdbare, hsbare, hbare]⟩
  | .breakLoop _, _, ts, hreads => by
    obtain ⟨t, us, rfl, ht, hreads⟩ := hreads.fixed rfl
    obtain rfl := hreads.nil
    exact ⟨_, .breakLoop ht, rfl⟩
  | .endCode _, _, ts, hreads => by
    obtain ⟨t, us, rfl, ht, hreads⟩ := hreads.fixed rfl
    obtain rfl := hreads.nil
    exact ⟨_, .endCode ht, rfl⟩
  | .call c, h, ts, hreads => by
    obtain ⟨n, o, us, args, rfl, hn, hname, ho, hargs, hbares⟩ := c.spells h hreads
    exact ⟨_, .call hn ho hargs, by simp only [Stmt.bare, Call.bare, hname, hbares]⟩
  | .moduleCall module c, h, ts, hreads => by
    rw [Stmt.shaped, Bool.and_eq_true] at h
    obtain ⟨m, us, rfl, hm, rfl, htail⟩ := hreads.name
    obtain ⟨d, us, rfl, hd, hcall⟩ := htail.fixed rfl
    obtain ⟨n, o, us, args, rfl, hn, hname, ho, hargs, hbares⟩ := c.spells h.2 hcall
    exact ⟨_, .moduleCall hm hd hn ho hargs, by simp only [Stmt.bare, Call.bare, hname, hbares]⟩

theorem Stmt.spells_all : (ss : List Stmt) → Stmt.shapedAll isProperName ss = true → ∀ {ts},
    Reads ts (Stmt.linesAll ss) →
    ∃ ss' : List Stmt, Spells ts (.items (ss'.map Item.stmt)) ∧ ss'.map Stmt.bare = ss.map Stmt.bare
  | [], _, ts, hreads => by
    obtain rfl := hreads.nil
    exact ⟨[], .noItems, rfl⟩
  | s :: ss, h, ts, hreads => by
    rw [Stmt.shapedAll, Bool.and_eq_true] at h
    obtain ⟨us, vs, rfl, hus, hvs⟩ := hreads.append
    obtain ⟨s', hs', hbare⟩ := Stmt.spells s h.1 hus
    obtain ⟨ss', hss', hbares⟩ := Stmt.spells_all ss h.2 hvs.newline
    exact ⟨s' :: ss', .nextItem hs' hss' nofun, by rw [List.map_cons, List.map_cons, hbare, hbares]⟩

theorem FnDef.spells_all : (fs : List FnDef) → FnDef.shapedAll isProperName fs = true →
    ∀ {ts us l}, Reads ts (FnDef.linesAll fs) → Spells us (.items l) →
    ∃ fs' : List FnDef, Spells (ts ++ us) (.items (fs'.map Item.fn ++ l)) ∧
      fs'.map FnDef.bare = fs.map FnDef.bare
  | [], _, ts, us, l, hreads, hrest => by
    obtain rfl := hreads.nil
    exact ⟨[], hrest, rfl⟩
  | f :: fs, h, ts, us, l, hreads, hrest => by
    rw [FnDef.shapedAll, Bool.and_eq_true] at h
    obtain ⟨xs, ys, rfl, hxs, hys⟩ := hreads.append
    obtain ⟨f', hf', hbare⟩ := FnDef.spells f h.1 hxs
    obtain ⟨fs', hfs', hbares⟩ := FnDef.spells_all fs h.2 hys.newline hrest
    rw [List.append_assoc]
    exact ⟨f' :: fs', .nextItem hf' hfs' nofun, by rw [List.map_cons, List.map_cons, hbare, hbares]⟩

end

/-- The canonical text of every program that is in shape, with names that are words and not
    reserved, is parsed to the same program up to the places of its parts. -/
theorem parse_text_of_shaped (b : Block) (h : b.shaped isProperName = true) (source : String) :
    ∃ b', parse ⟨source, b.text⟩ = .ok b' ∧ b'.bare = b.bare := by
  have hclean : Piece.Clean b.lines := by
    simpa using b.clean_lines h .nil
  obtain ⟨ts, us, e, hlexes, hsolid, he, hreads⟩ := Reader.exists_lexes_of_clean hclean
  obtain ⟨l, hspell, hbare⟩ := b.spells h hreads
  refine ⟨.ofItems l (Span.first.through us), ?_, hbare _⟩
  exact (parse_eq_ok_of_lexes ⟨source, b.text⟩ hlexes).mpr
    ⟨us, e, l, hsolid, he, hspell, rfl⟩

/-- A program with the smallest number, a negated variable, a string of characters that have to be
    escaped, a parameter that is copied back and a second branch. -/
def thorny : Block :=
  let value : Expr :=
    ⟨[⟨.number Int64.minValue, true, false, .first⟩, ⟨.var ⟨.global, "y"⟩, false, true, .first⟩,
      ⟨.str "\"\\\r\n", false, false, .first⟩], [.sub, .div], .first⟩
  let test : Conditions := ⟨[⟨value, some (.contains, value), .first⟩], [], .first⟩
  let f : FnDef := ⟨"g", ["p", "q"], [1], ⟨[.breakLoop .first], [], .first⟩, .first⟩
  ⟨[.assign ⟨.session, "x"⟩ value .first,
    .ifElse test ⟨[], [f], .first⟩ (some ⟨[.call ⟨"g", [value, value], .first⟩], [], .first⟩)
      .first],
    [f], .first⟩

/-- The canonical text of this program is parsed to the program. -/
theorem parse_text_of_shaped_thorny :
    thorny.shaped isProperName = true ∧
      ∃ b', parse ⟨"p", thorny.text⟩ = .ok b' ∧ b'.bare = thorny.bare :=
  have hshaped : thorny.shaped isProperName = true := by decide +kernel
  ⟨hshaped, parse_text_of_shaped thorny hshaped "p"⟩

end TierScript
