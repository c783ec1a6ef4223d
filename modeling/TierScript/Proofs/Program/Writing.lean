import TierScript.Proofs.Program.Layout

/-!
# The canonical text is read back piece by piece

Every piece of the layout of a program is scanned as itself (`Block.clean_lines`), if the names of
the program are words that are not reserved. Each construct is followed through once, before any
clean pieces that do not continue its last word.
-/

namespace TierScript

open Piece Scan

/-! ## First characters -/

namespace Piece

/-- The piece starts with a character that can start an operand. -/
def opens (p : Piece) : Bool := p.chars.head?.any fun c => !isGap c && (c != '=' && c != '?')

/-- The piece does not start with a blank. -/
def solid (p : Piece) : Bool := p.chars.head?.any fun c => !isGap c

/-- The piece ends a word that stands before it. -/
def breaks (p : Piece) : Bool := p.chars.head?.any marks.contains

variable {p : Piece} {ps : List Piece}

theorem head?_text {c : Char} (h : p.chars.head? = some c) : (text (p :: ps)).head? = some c := by
  rw [text_cons, List.head?_append, h]
  rfl

theorem breaks_text (h : p.breaks = true) : Breaks (text (p :: ps)) := by
  obtain ⟨c, hc, hmark⟩ := (Option.any_eq_true _ _).mp h
  intro d hd
  rw [head?_text hc] at hd
  cases hd
  exact isWordPart_marks c (by simpa using hmark)

theorem head_of_opens (h : p.opens = true) (ps : List Piece) :
    ∃ c, (text (p :: ps)).head? = some c ∧ c ≠ '=' ∧ c ≠ '?' := by
  obtain ⟨c, hc, hopens⟩ := (Option.any_eq_true _ _).mp h
  simp only [Bool.and_eq_true, bne_iff_ne] at hopens
  exact ⟨c, head?_text hc, hopens.2⟩

theorem solid_of_opens (h : p.opens = true) : p.solid = true := by
  obtain ⟨c, hc, hopens⟩ := (Option.any_eq_true _ _).mp h
  exact (Option.any_eq_true _ _).mpr ⟨c, hc, (Bool.and_eq_true_iff.mp hopens).1⟩

theorem opens_of_isWordPart {c : Char} {cs : List Char} (hp : p.chars = c :: cs)
    (hc : isWordPart c = true) : p.opens = true := by
  have hmarks := not_mem_marks hc
  simp only [marks, List.mem_cons, not_or] at hmarks
  simp [opens, hp, isGap, hmarks]

theorem opens_name {s : String} (h : isWord s.toList = true) : (name s).opens = true := by
  cases hs : s.toList with
  | nil => rw [hs] at h; cases h
  | cons c cs =>
    rw [hs] at h
    exact opens_of_isWordPart hs (isWordPart_of_isWordStart (Bool.and_eq_true_iff.mp h).1)

theorem opens_number (n : Nat) : (number n).opens = true := by
  cases hn : Nat.toDigits 10 n with
  | nil => exact absurd hn Nat.toDigits_ne_nil
  | cons c cs =>
    have hdigit : c.isDigit = true :=
      Nat.isDigit_of_mem_toDigits (by decide) (by decide) (hn ▸ List.mem_cons_self)
    exact opens_of_isWordPart hn (isWordPart_of_isDigit hdigit)

/-! ## Marks and blanks -/

variable {rest : List Piece}

theorem clean_space (hp : p.solid = true) (h : Clean (p :: ps)) : Clean (.space :: p :: ps) := by
  refine .cons (scans_space ?_) h
  obtain ⟨c, hc, hgap⟩ := (Option.any_eq_true _ _).mp hp
  intro d hd
  rw [head?_text hc] at hd
  cases hd
  simpa using hgap

theorem clean_newline (h : Clean rest) : Clean (.newline :: rest) := .cons scans_newline h

/-- A mark that can stand before everything. -/
theorem clean_mark {k : Kind} (hk : k.clashes = some []) (h : Clean rest) :
    Clean (.fixed k :: rest) := .cons (scans_mark hk nofun) h

theorem clean_plainWord {k : Kind} (hk : k ∈ Kind.plainWords) (hp : p.breaks = true)
    (h : Clean (p :: ps)) : Clean (.fixed k :: p :: ps) :=
  .cons (scans_plainWord hk (breaks_text hp)) h

theorem clean_openingWord {k : Kind} (hk : k ∈ Kind.openingWords)
    (h : Clean (.fixed .openParen :: rest)) :
    Clean (.fixed k :: .space :: .fixed .openParen :: rest) :=
  .cons (scans_openingWord hk _) (clean_space rfl h)

/-- A mark between spaces. -/
theorem clean_spaced {k : Kind} {cs : List Char} (hk : k.clashes = some cs)
    (hspace : cs.contains ' ' = false) (hsolid : (fixed k).solid = true) (hp : p.solid = true)
    (h : Clean (p :: ps)) : Clean (spaced k ++ p :: ps) := by
  refine clean_space hsolid (.cons (scans_mark hk ?_) (clean_space hp h))
  rintro c ⟨⟩
  simpa using hspace

theorem clean_name {s : String} (hs : isProperName s = true) (hp : p.breaks = true)
    (h : Clean (p :: ps)) : Clean (.name s :: p :: ps) := by
  obtain ⟨hword, hfree⟩ := word_of_isProperName hs
  exact .cons (scans_name hword hfree (breaks_text hp)) h

theorem clean_number {n : Nat} (hp : p.breaks = true) (h : Clean (p :: ps)) :
    Clean (.number n :: p :: ps) := .cons (scans_number (breaks_text hp)) h

theorem clean_var {v : Var} (hv : isProperName v.name = true) (hp : p.breaks = true)
    (h : Clean (p :: ps)) : Clean (v.pieces ++ p :: ps) :=
  .dot (scans_tier v.tier _) (inline_tier v.tier) (clean_name hv hp h)

end Piece

/-! ## Expressions -/

section

variable {p : Piece} {ps : List Piece}

theorem clean_signed (i : Int) (hp : p.breaks = true) (h : Clean (p :: ps)) :
    Clean (signed i ++ p :: ps) := by
  unfold signed
  split
  · exact clean_mark rfl (clean_number hp h)
  · exact clean_number hp h

theorem signed_eq_cons (i : Int) : ∃ p ps, signed i = p :: ps ∧ p.opens = true := by
  unfold signed
  split
  · exact ⟨_, _, rfl, rfl⟩
  · exact ⟨_, _, rfl, opens_number _⟩

theorem Term.Kind.pieces_eq_cons (negate : Bool) (kind : Term.Kind) :
    ∃ p ps, kind.pieces negate = p :: ps ∧ p.opens = true := by
  cases kind with
  | number n => simpa only [pieces] using signed_eq_cons n.toInt
  | bool b => cases b <;> exact ⟨_, _, rfl, rfl⟩
  | var v =>
    cases negate with
    | true => exact ⟨_, _, rfl, rfl⟩
    | false =>
      refine ⟨_, _, rfl, ?_⟩
      cases v.tier <;> rfl
  | str s => exact ⟨_, _, rfl, rfl⟩
  | null => exact ⟨_, _, rfl, rfl⟩
  | group e => exact ⟨_, _, rfl, rfl⟩

theorem Term.pieces_eq_cons (t : Term) : ∃ p ps, t.pieces = p :: ps ∧ p.opens = true := by
  obtain ⟨kind, invert, negate, span⟩ := t
  cases invert with
  | true => exact ⟨_, _, rfl, rfl⟩
  | false => simpa only [pieces] using Term.Kind.pieces_eq_cons negate kind

theorem clean_arithOp (op : ArithOp) (hp : p.solid = true) (h : Clean (p :: ps)) :
    Clean (spaced op.kind ++ p :: ps) := by
  cases op <;> exact clean_spaced rfl rfl rfl hp h

theorem clean_relOp (op : RelOp) (hp : p.solid = true) (h : Clean (p :: ps)) :
    Clean (spaced op.kind ++ p :: ps) := by
  cases op <;> exact clean_spaced rfl rfl rfl hp h

theorem clean_boolOp (op : BoolOp) (hp : p.solid = true) (h : Clean (p :: ps)) :
    Clean (spaced op.kind ++ p :: ps) := by
  cases op <;> exact clean_spaced rfl rfl rfl hp h

end

mutual

theorem Expr.clean : (e : Expr) → e.shaped isProperName = true → ∀ {p ps}, p.breaks = true →
    Clean (p :: ps) → Clean (e.pieces ++ p :: ps)
  | ⟨[], ops, _⟩, h, _, _, _, _ => by simp [Expr.shaped] at h
  | ⟨t :: ts, ops, _⟩, h, p, ps, hp, hclean => by
    simp only [Expr.shaped, Term.shapedAll, Bool.and_eq_true] at h
    obtain ⟨q, qs, heq, hq, hrest⟩ := Term.clean_more ts ops h.2.2 hp hclean
    rw [Expr.pieces, List.append_assoc, heq]
    exact Term.clean t h.2.1 hq hrest

theorem Term.clean : (t : Term) → t.shaped isProperName = true → ∀ {p ps}, p.breaks = true →
    Clean (p :: ps) → Clean (t.pieces ++ p :: ps)
  | ⟨kind, true, negate, _⟩, h, p, ps, hp, hclean => by
    rw [Term.shaped] at h
    have hkind := Term.Kind.clean kind negate h hp hclean
    obtain ⟨q, qs, heq, hq⟩ := Term.Kind.pieces_eq_cons negate kind
    rw [Term.pieces, List.cons_append]
    rw [heq, List.cons_append] at hkind ⊢
    refine .cons (scans_mark rfl ?_) hkind
    obtain ⟨c, hc, hne, -⟩ := head_of_opens hq (qs ++ p :: ps)
    rintro d hd
    rw [hc] at hd
    cases hd
    simpa using hne
  | ⟨kind, false, negate, _⟩, h, p, ps, hp, hclean => by
    rw [Term.shaped] at h
    exact Term.Kind.clean kind negate h hp hclean

theorem Term.Kind.clean : (kind : Term.Kind) → (negate : Bool) →
    kind.shaped isProperName negate = true → ∀ {p ps}, p.breaks = true →
    Clean (p :: ps) → Clean (kind.pieces negate ++ p :: ps)
  | .number n, _, _, p, ps, hp, hclean => clean_signed n.toInt hp hclean
  | .str s, _, _, p, ps, _, hclean => .cons scans_str hclean
  | .bool true, _, _, p, ps, hp, hclean => clean_plainWord (by decide) hp hclean
  | .bool false, _, _, p, ps, hp, hclean => clean_plainWord (by decide) hp hclean
  | .null, _, _, p, ps, hp, hclean => clean_plainWord (by decide) hp hclean
  | .var v, true, h, p, ps, hp, hclean => clean_mark rfl (clean_var h hp hclean)
  | .var v, false, h, p, ps, hp, hclean => clean_var h hp hclean
  | .group e, negate, h, p, ps, _, hclean => by
    rw [Term.Kind.shaped, Bool.and_eq_true] at h
    rw [Term.Kind.pieces, List.cons_append, List.append_assoc]
    exact clean_mark rfl (Expr.clean e h.2 rfl (clean_mark rfl hclean))

theorem Term.clean_more : (ts : List Term) → (ops : List ArithOp) →
    Term.shapedAll isProperName ts = true → ∀ {p ps}, p.breaks = true → Clean (p :: ps) →
    ∃ q qs, Term.morePieces ops ts ++ p :: ps = q :: qs ∧ q.breaks = true ∧ Clean (q :: qs)
  | [], ops, _, p, ps, hp, hclean => ⟨p, ps, by cases ops <;> rfl, hp, hclean⟩
  | _ :: _, [], _, p, ps, hp, hclean => ⟨p, ps, rfl, hp, hclean⟩
  | t :: ts, op :: ops, h, p, ps, hp, hclean => by
    rw [Term.shapedAll, Bool.and_eq_true] at h
    obtain ⟨q, qs, heq, hq, hrest⟩ := Term.clean_more ts ops h.2 hp hclean
    have hterm := Term.clean t h.1 hq hrest
    obtain ⟨r, rs, hr, hopens⟩ := Term.pieces_eq_cons t
    refine ⟨.space, _, ?_, rfl, clean_arithOp op (solid_of_opens hopens) (hr ▸ hterm)⟩
    rw [Term.morePieces, List.append_assoc, List.append_assoc, heq, hr]
    rfl

end

/-! ## Conditions, arguments and parameters -/

section

variable {p : Piece} {ps : List Piece}

theorem Expr.pieces_eq_cons {e : Expr} (h : e.shaped isProperName = true) :
    ∃ p ps, e.pieces = p :: ps ∧ p.opens = true := by
  obtain ⟨terms, ops, span⟩ := e
  cases terms with
  | nil => simp [Expr.shaped] at h
  | cons t ts =>
    obtain ⟨p, ps, heq, hp⟩ := Term.pieces_eq_cons t
    exact ⟨p, _, by rw [pieces, heq]; rfl, hp⟩

theorem Condition.pieces_eq_cons {c : Condition} (h : c.shaped isProperName = true) :
    ∃ p ps, c.pieces = p :: ps ∧ p.opens = true := by
  obtain ⟨p, ps, heq, hp⟩ := Expr.pieces_eq_cons (Bool.and_eq_true_iff.mp h).1
  exact ⟨p, _, by rw [pieces, heq]; rfl, hp⟩

theorem Condition.clean {c : Condition} (h : c.shaped isProperName = true) (hp : p.breaks = true)
    (hclean : Clean (p :: ps)) : Clean (c.pieces ++ p :: ps) := by
  obtain ⟨left, comparison, span⟩ := c
  obtain ⟨hleft, hright⟩ := Bool.and_eq_true_iff.mp h
  cases comparison with
  | none =>
    simp only [pieces, List.append_nil]
    exact left.clean hleft hp hclean
  | some r =>
    obtain ⟨op, right⟩ := r
    obtain ⟨q, qs, heq, hq⟩ := Expr.pieces_eq_cons hright
    have hrest := right.clean hright hp hclean
    rw [heq] at hrest
    simp only [pieces, List.append_assoc, heq]
    exact left.clean hleft rfl (clean_relOp op (solid_of_opens hq) hrest)

theorem Condition.clean_more (ops : List BoolOp) {cs : List Condition}
    (h : cs.all (Condition.shaped isProperName) = true) (hp : p.breaks = true)
    (hclean : Clean (p :: ps)) :
    ∃ q qs, morePieces ops cs ++ p :: ps = q :: qs ∧ q.breaks = true ∧ Clean (q :: qs) := by
  induction cs generalizing ops with
  | nil => exact ⟨p, ps, by cases ops <;> rfl, hp, hclean⟩
  | cons c cs ih =>
    cases ops with
    | nil => exact ⟨p, ps, rfl, hp, hclean⟩
    | cons op ops =>
      rw [List.all_cons, Bool.and_eq_true] at h
      obtain ⟨q, qs, heq, hq, hrest⟩ := ih ops h.2
      have hcond := c.clean h.1 hq hrest
      obtain ⟨r, rs, hr, hopens⟩ := Condition.pieces_eq_cons h.1
      refine ⟨.space, _, ?_, rfl, clean_boolOp op (solid_of_opens hopens) (hr ▸ hcond)⟩
      rw [morePieces, List.append_assoc, List.append_assoc, heq, hr]
      rfl

theorem Conditions.clean {c : Conditions} (h : c.shaped isProperName = true) (hp : p.breaks = true)
    (hclean : Clean (p :: ps)) : Clean (c.pieces ++ p :: ps) := by
  obtain ⟨items, ops, span⟩ := c
  obtain ⟨hlength, hitems⟩ := Bool.and_eq_true_iff.mp h
  cases items with
  | nil => simp at hlength
  | cons first rest =>
    rw [List.all_cons, Bool.and_eq_true] at hitems
    obtain ⟨q, qs, heq, hq, hrest⟩ := Condition.clean_more ops hitems.2 hp hclean
    simp only [pieces, List.append_assoc, heq]
    exact first.clean hitems.1 hq hrest

/-- Parts that are clean on their own are clean with commas in between. -/
theorem clean_commas {parts : List (List Piece)}
    (hparts : ∀ part ∈ parts, (∃ q qs, part = q :: qs ∧ q.opens = true) ∧
      ∀ {q qs}, q.breaks = true → Clean (q :: qs) → Clean (part ++ q :: qs))
    (hp : p.breaks = true) (h : Clean (p :: ps)) : Clean (commas parts ++ p :: ps) := by
  induction parts with
  | nil => exact h
  | cons part parts ih =>
    rw [List.forall_mem_cons] at hparts
    cases parts with
    | nil => exact hparts.1.2 hp h
    | cons next parts =>
      have hrest := ih hparts.2
      obtain ⟨⟨q, qs, rfl, hq⟩, -⟩ := hparts.2 next List.mem_cons_self
      rw [commas, List.append_assoc]
      refine hparts.1.2 rfl (clean_mark rfl ?_)
      obtain ⟨r, heq⟩ : ∃ r, commas ((q :: qs) :: parts) = q :: r := by
        cases parts <;> exact ⟨_, rfl⟩
      rw [heq] at hrest ⊢
      exact clean_space (solid_of_opens hq) hrest

theorem Call.clean {c : Call} (h : c.shaped isProperName = true) (hclean : Clean ps) :
    Clean (c.pieces ++ ps) := by
  obtain ⟨hname, hargs⟩ := Bool.and_eq_true_iff.mp h
  simp only [pieces, List.cons_append, List.append_assoc, List.nil_append]
  refine clean_name hname rfl (clean_mark rfl (clean_commas ?_ rfl (clean_mark rfl hclean)))
  rintro part hpart
  obtain ⟨e, he, rfl⟩ := List.mem_map.mp hpart
  have hshape := List.all_eq_true.mp hargs e he
  exact ⟨Expr.pieces_eq_cons hshape, e.clean hshape⟩

theorem mem_marked {outs : List Nat} {i : Nat} {params : List String} {x : Bool × String}
    (h : x ∈ marked outs i params) : x.2 ∈ params := by
  induction params generalizing i with
  | nil => cases h
  | cons q params ih =>
    rcases List.mem_cons.mp h with rfl | h
    · exact List.mem_cons_self
    · exact List.mem_cons_of_mem _ (ih h)

theorem clean_parameters {outs : List Nat} {params : List String}
    (hparams : params.all isProperName = true) (hp : p.breaks = true) (hclean : Clean (p :: ps)) :
    Clean (commas ((marked outs 0 params).map parameterPieces) ++ p :: ps) := by
  refine clean_commas ?_ hp hclean
  rintro part hpart
  obtain ⟨⟨out, q⟩, hq, rfl⟩ := List.mem_map.mp hpart
  have hname := List.all_eq_true.mp hparams q (mem_marked hq)
  have hopens := opens_name (word_of_isProperName hname).1
  cases out with
  | true =>
    refine ⟨⟨_, _, rfl, rfl⟩, ?_⟩
    intro r rs hr hrest
    refine .cons (scans_mark rfl ?_) (clean_name hname hr hrest)
    obtain ⟨c, hc, -, hne⟩ := head_of_opens hopens (r :: rs)
    intro d (hd : d ∈ (text (.name q :: r :: rs)).head?)
    rw [hc] at hd
    cases hd
    simpa using hne
  | false => exact ⟨⟨_, _, rfl, hopens⟩, clean_name hname⟩

end

/-- A word, a condition in parentheses and a block. -/
theorem clean_tested {k : Kind} (hk : k ∈ Kind.openingWords) {c : Conditions}
    (hc : c.shaped isProperName = true) {b : Block} {ps : List Piece}
    (h : Clean (b.braced ++ ps)) :
    Clean (.fixed k :: .space :: .fixed .openParen ::
      (c.pieces ++ .fixed .closeParen :: .space :: (b.braced ++ ps))) := by
  rw [Block.braced_eq, List.cons_append] at h ⊢
  exact clean_openingWord hk (clean_mark rfl (c.clean hc rfl (clean_mark rfl (clean_space rfl h))))

theorem clean_braced {b : Block} {ps : List Piece}
    (h : Clean (b.lines ++ .fixed .closeBrace :: ps)) : Clean (b.braced ++ ps) := by
  rw [Block.braced_eq, List.cons_append, List.cons_append, List.append_assoc]
  exact clean_mark rfl (clean_newline h)

/-! ## Statements and blocks -/

mutual

theorem Block.clean_lines : (b : Block) → b.shaped isProperName = true → ∀ {ps}, Clean ps →
    Clean (b.lines ++ ps)
  | ⟨stmts, functions, _⟩, h, ps, hclean => by
    rw [Block.shaped, Bool.and_eq_true] at h
    rw [Block.lines, List.append_assoc]
    exact FnDef.clean_all functions h.2 (Stmt.clean_all stmts h.1 hclean)

theorem FnDef.clean : (f : FnDef) → f.shaped isProperName = true → ∀ {p ps}, p.breaks = true →
    Clean (p :: ps) → Clean (f.pieces ++ p :: ps)
  | ⟨fn, params, outs, body, _⟩, h, p, ps, hp, hclean => by
    simp only [FnDef.shaped, Bool.and_eq_true] at h
    obtain ⟨⟨⟨hname, hparams⟩, -⟩, hbody⟩ := h
    simp only [FnDef.pieces, List.cons_append, List.append_assoc, List.nil_append]
    have hend := clean_plainWord (k := .fnWord) (by decide) hp hclean
    have hlines := body.clean_lines hbody (clean_plainWord (k := .endWord) (by decide) rfl
      (clean_space rfl hend))
    have hparen := clean_mark (k := .closeParen) rfl (clean_newline hlines)
    have hopens := opens_name (word_of_isProperName hname).1
    exact clean_plainWord (by decide) rfl (clean_space (solid_of_opens hopens)
      (clean_name hname rfl (clean_mark rfl (clean_parameters hparams rfl hparen))))

theorem Stmt.clean : (s : Stmt) → s.shaped isProperName = true → ∀ {p ps}, p.breaks = true →
    Clean (p :: ps) → Clean (s.pieces ++ p :: ps)
  | .block body, h, p, ps, _, hclean => clean_braced (body.clean_lines h (clean_mark rfl hclean))
  | .assign target value _, h, p, ps, hp, hclean => by
    rw [Stmt.shaped, Bool.and_eq_true] at h
    have hvalue := value.clean h.2 hp hclean
    obtain ⟨q, qs, heq, hq⟩ := Expr.pieces_eq_cons h.2
    rw [heq] at hvalue
    simp only [Stmt.pieces, List.append_assoc, heq]
    exact clean_var h.1 rfl (clean_spaced rfl rfl rfl (solid_of_opens hq) hvalue)
  | .ifElse condition body none _, h, p, ps, _, hclean => by
    rw [Stmt.shaped, Bool.and_eq_true] at h
    have hbody := clean_braced (body.clean_lines h.2 (clean_mark rfl hclean))
    simp only [Stmt.pieces, List.cons_append, List.append_assoc]
    exact clean_tested (by decide) h.1 hbody
  | .ifElse condition body (some otherwise) _, h, p, ps, _, hclean => by
    simp only [Stmt.shaped, Bool.and_eq_true] at h
    have hother := clean_braced (otherwise.clean_lines h.2 (clean_mark rfl hclean))
    have helse : Clean (.space :: .fixed .elseWord :: .space :: (otherwise.braced ++ p :: ps)) := by
      rw [Block.braced_eq, List.cons_append] at hother ⊢
      exact clean_space rfl (clean_plainWord (by decide) rfl (clean_space rfl hother))
    have hbody := clean_braced (body.clean_lines h.1.2 (clean_mark rfl helse))
    simp only [Stmt.pieces, List.cons_append, List.append_assoc]
    exact clean_tested (by decide) h.1.1 hbody
  | .whileLoop condition body _, h, p, ps, _, hclean => by
    rw [Stmt.shaped, Bool.and_eq_true] at h
    have hbody := clean_braced (body.clean_lines h.2 (clean_mark rfl hclean))
    simp only [Stmt.pieces, List.cons_append, List.append_assoc]
    exact clean_tested (by decide) h.1 hbody
  | .forLoop dest src body _, h, p, ps, _, hclean => by
    simp only [Stmt.shaped, Bool.and_eq_true] at h
    have hbody := clean_braced (body.clean_lines h.2 (clean_mark rfl hclean))
    rw [Block.braced_eq, List.cons_append] at hbody
    have hsrc := src.clean h.1.2 rfl (clean_mark (k := .closeParen) rfl (clean_space rfl hbody))
    obtain ⟨q, qs, heq, hq⟩ := Term.pieces_eq_cons src
    rw [heq, List.cons_append] at hsrc
    simp only [Stmt.pieces, List.cons_append, List.append_assoc, heq, Block.braced_eq]
    simp only [List.cons_append, List.append_assoc] at hsrc
    exact clean_openingWord (by decide) (clean_mark rfl (dest.clean h.1.1 rfl
      (clean_mark rfl (clean_space (solid_of_opens hq) hsrc))))
  | .breakLoop _, _, p, ps, hp, hclean => clean_plainWord (by decide) hp hclean
  | .endCode _, _, p, ps, hp, hclean => clean_plainWord (by decide) hp hclean
  | .call c, h, p, ps, _, hclean => c.clean h hclean
  | .moduleCall module c, h, p, ps, _, hclean => by
    rw [Stmt.shaped, Bool.and_eq_true] at h
    obtain ⟨hword, hfree⟩ := word_of_isProperName h.1
    exact .dot (scans_name hword hfree (breaks_text (p := .fixed .dot) rfl)) (inline_name hword)
      (c.clean h.2 hclean)

theorem Stmt.clean_all : (ss : List Stmt) → Stmt.shapedAll isProperName ss = true → ∀ {ps},
    Clean ps → Clean (Stmt.linesAll ss ++ ps)
  | [], _, _, hclean => hclean
  | s :: ss, h, ps, hclean => by
    rw [Stmt.shapedAll, Bool.and_eq_true] at h
    rw [Stmt.linesAll, List.append_assoc]
    exact s.clean h.1 rfl (clean_newline (Stmt.clean_all ss h.2 hclean))

theorem FnDef.clean_all : (fs : List FnDef) → FnDef.shapedAll isProperName fs = true → ∀ {ps},
    Clean ps → Clean (FnDef.linesAll fs ++ ps)
  | [], _, _, hclean => hclean
  | f :: fs, h, ps, hclean => by
    rw [FnDef.shapedAll, Bool.and_eq_true] at h
    rw [FnDef.linesAll, List.append_assoc]
    exact f.clean h.1 rfl (clean_newline (FnDef.clean_all fs h.2 hclean))

end

end TierScript
