import Mathlib.Data.List.Nodup
import TierScript.Proofs.Program.Composition
import TierScript.Proofs.Program.Enclosing
import TierScript.Proofs.Program.Extents
import TierScript.Proofs.Token.Excision

/-!
# The `fn` after `end`

A definition ends with `end`, and a `fn` after it belongs to the `end`. When that `fn` is left out,
the tokens spell the same, unless the next thing is a definition. Then the `fn` of that is taken in
place of the one that is gone, and its `end` is left over.

* `LeavesOut`: tokens without some `fn` after `end`, none of them before a definition.
* `Spells.leaveOut`: they spell the same. Where the next item is a call that starts with a `fn` of
  its own, that `fn` becomes the one after the `end`, and the call is the same call.
* `not_spells_before_definition`: before a definition the `fn` is needed.
* `parse_without_closing_fn`: what a program is when one of them is taken out of its text.
-/

namespace TierScript

open Parse (Item outPositions)
open Token (solid chars face)

/-! ## Leaving out closing words -/

/-- The second list of tokens is the first one without some `fn` after `end`, none of which comes
    before a definition. `closed` tells whether an `end` comes before the tokens, and `rest` is what
    comes after them. -/
inductive LeavesOut (rest : List Token) : Bool → List Token → List Token → Prop where
  | nil {closed : Bool} : LeavesOut rest closed [] []
  | keep {closed : Bool} {t : Token} {ts us : List Token} :
      LeavesOut rest (t.kind = .endWord) ts us → LeavesOut rest closed (t :: ts) (t :: us)
  | drop {g : Token} {ts us : List Token} : g.kind = .fnWord → ¬ StartsDefinition (ts ++ rest) →
      LeavesOut rest false ts us → LeavesOut rest true (g :: ts) us

namespace LeavesOut

variable {rest ts us front : List Token} {closed : Bool} {t : Token}

/-- Every token is kept but a `fn` after `end`. -/
theorem cons_inv (h : LeavesOut rest closed (t :: ts) us)
    (ht : closed = false ∨ t.kind ≠ .fnWord) :
    ∃ us', us = t :: us' ∧ LeavesOut rest (t.kind = .endWord) ts us' := by
  cases h with
  | keep h => exact ⟨_, rfl, h⟩
  | drop hg => simp [hg] at ht

theorem append_inv (h : LeavesOut rest closed (ts ++ front) us) :
    ∃ ts' us', us = ts' ++ us' ∧ LeavesOut (front ++ rest) closed ts ts' ∧
      LeavesOut rest (afterEnd closed ts) front us' := by
  induction ts generalizing closed us with
  | nil => exact ⟨[], us, rfl, .nil, h⟩
  | cons t ts ih =>
    rw [List.cons_append] at h
    cases h with
    | keep h =>
      obtain ⟨ts', us', rfl, hts, hus⟩ := ih h
      exact ⟨t :: ts', us', rfl, .keep hts, hus⟩
    | drop hg hstarts h =>
      obtain ⟨ts', us', rfl, hts, hus⟩ := ih h
      rw [List.append_assoc] at hstarts
      exact ⟨ts', us', rfl, .drop hg hstarts hts, by rwa [afterEnd_cons, hg]⟩

/-- Tokens without `fn` and `end` are kept. -/
theorem plain_append_inv (h : LeavesOut rest closed (front ++ ts) us) (hfront : Plain front) :
    ∃ us', us = front ++ us' ∧ LeavesOut rest (afterEnd closed front) ts us' := by
  induction front generalizing closed us with
  | nil => exact ⟨us, rfl, h⟩
  | cons t front ih =>
    obtain ⟨ht, hfront⟩ := plain_cons.mp hfront
    rw [List.cons_append] at h
    obtain ⟨us', rfl, hrest⟩ := h.cons_inv (.inr (Kind.ne_of_encloses ht).1)
    obtain ⟨back, rfl, hback⟩ := ih hrest hfront
    exact ⟨back, rfl, hback⟩

theorem eq_of_nil (h : LeavesOut rest closed [] us) : us = [] := by
  cases h
  rfl

theorem eq_of_plain (h : LeavesOut rest closed ts us) (hts : Plain ts) : us = ts := by
  rw [← List.append_nil ts] at h
  obtain ⟨us', rfl, hnil⟩ := h.plain_append_inv hts
  rw [hnil.eq_of_nil, List.append_nil]

theorem cons_plain (h : LeavesOut rest false (t :: ts) us) (ht : t.kind.encloses = false) :
    ∃ us', us = t :: us' ∧ LeavesOut rest false ts us' := by
  obtain ⟨us', rfl, hrest⟩ := h.cons_inv (.inl rfl)
  rw [decide_eq_false (Kind.ne_of_encloses ht).2] at hrest
  exact ⟨us', rfl, hrest⟩

/-- The tokens in front are kept where there are no `fn` and `end` among them. -/
theorem split {back : List Token} (h : LeavesOut rest false ts us) (hts : ts = front ++ back)
    (hfront : Plain front) : ∃ back', us = front ++ back' ∧ LeavesOut rest false back back' := by
  rw [hts] at h
  obtain ⟨back', rfl, hback⟩ := h.plain_append_inv hfront
  rw [hfront.afterEnd_eq] at hback
  exact ⟨back', rfl, hback⟩

/-- The first of the tokens is kept if no `end` comes before it or it is not a `fn`. -/
theorem of_head (h : LeavesOut rest closed ts us)
    (hts : closed = true → ∀ t ∈ ts.head?, t.kind ≠ .fnWord) : LeavesOut rest false ts us := by
  cases h with
  | nil => exact .nil
  | keep h => exact .keep h
  | drop hg => exact absurd hg (hts rfl _ rfl)

/-- The word and what is in parentheses before a body are kept. -/
theorem header {w o p : Token} {back : List Token}
    (h : LeavesOut rest false (w :: o :: (front ++ p :: back)) us)
    (hfront : Plain (w :: o :: (front ++ [p]))) :
    ∃ back', us = w :: o :: (front ++ p :: back') ∧ LeavesOut rest false back back' := by
  have hshape (zs : List Token) :
      w :: o :: (front ++ p :: zs) = w :: o :: (front ++ [p]) ++ zs := by simp
  obtain ⟨back', rfl, hback⟩ := h.split (hshape back) hfront
  exact ⟨back', (hshape back').symm, hback⟩

/-- The tokens of a definition are kept but for those within its body and after its `end`. -/
theorem definition {w e : Token} {back : List Token}
    (h : LeavesOut rest false (w :: (front ++ (ts ++ e :: back))) us) (hw : w.kind = .fnWord)
    (hfront : Plain front) (he : e.kind = .endWord) :
    ∃ ts' back', us = w :: (front ++ (ts' ++ e :: back')) ∧
      LeavesOut (e :: back ++ rest) false ts ts' ∧ LeavesOut rest true back back' := by
  obtain ⟨_, rfl, hrest⟩ := h.cons_inv (.inl rfl)
  rw [hw] at hrest
  obtain ⟨_, rfl, hbody⟩ := hrest.split rfl hfront
  obtain ⟨ts', us', rfl, hts, hus⟩ := hbody.append_inv
  obtain ⟨back', rfl, hback⟩ := hus.cons_inv (.inr (by rw [he]; nofun))
  rw [decide_eq_true he] at hback
  exact ⟨ts', back', rfl, hts, hback⟩

/-- Where the tokens that are left start without an `end`, nothing is left out. -/
theorem prefix_of_prefix {ks : List Kind} (hend : .endWord ∉ ks) (h : LeavesOut rest false ts us)
    (hks : ks <+: us.map Token.kind) : ks <+: ts.map Token.kind := by
  induction ks generalizing ts us with
  | nil => exact List.nil_prefix
  | cons k ks ih =>
    cases h with
    | nil => exact hks
    | @keep _ t ts us h =>
      obtain ⟨rfl, hrest⟩ := List.cons_prefix_cons.mp hks
      obtain ⟨ht, hend⟩ := not_or.mp (mt List.mem_cons.mpr hend)
      rw [decide_eq_false (Ne.symm ht)] at h
      exact List.cons_prefix_cons.mpr ⟨rfl, ih hend h hrest⟩

/-- Leaving out does not make a definition of what was none. -/
theorem startsDefinition (h : LeavesOut rest false ts us) (hus : StartsDefinition us) :
    StartsDefinition ts := h.prefix_of_prefix (by simp) hus

end LeavesOut

/-- A `fn` after a definition without one becomes a part of it. -/
theorem Spells.close {ts : List Token} {x : Item} (h : Spells ts (.item x true)) {g : Token}
    (hg : g.kind = .fnWord) : ∃ x', Spells (ts ++ [g]) (.item x' false) ∧ x'.bare = x.bare := by
  cases h with
  | @fnEnd f n o ps params is l e hf hn ho hps his he =>
    have hclosed := Spells.fnEndFn hf hn ho hps his he hg
    refine ⟨_, by simpa using hclosed, ?_⟩
    simp only [Item.bare, FnDef.bare]

/-- An item that starts with `fn` is a definition, or a call that is the same without the `fn`. -/
theorem Spells.call_of_fn {ts : List Token} {x : Item} {bare : Bool} (h : Spells ts (.item x bare))
    (hfn : ts.head?.map Token.kind = some .fnWord) (hstarts : ¬ StartsDefinition ts) :
    ∃ f us x', ts = f :: us ∧ Spells us (.item x' false) ∧ x'.bare = x.bare := by
  cases h with
  | assign hv =>
    cases hv with
    | tierName hw | tierDotName hw => simp [hw] at hfn
  | call hk | moduleCall hk | breakLoop hk | endCode hk | whileLoop hk | forLoop hk =>
    simp [hk] at hfn
  | block hb =>
    cases hb with
    | body hk => simp [hk] at hfn
  | ifItem hs =>
    cases hs with
    | ifStmt hk => simp [hk] at hfn
  | fnEnd hf hn ho | fnEndFn hf hn ho =>
    simp [startsDefinition_cons, hf, hn, ho] at hstarts
  | fnModuleCall hf hm hd hn ho ha => exact ⟨_, _, _, rfl, .moduleCall hm hd hn ho ha, rfl⟩

/-- An item before items. If it ends without a `fn` and no definition comes next, it may take the
    `fn` from the call that comes next. -/
theorem Spells.cons_items {ts us : List Token} {x : Item} {bare : Bool} {l : List Item}
    (h : Spells ts (.item x bare)) (h' : Spells us (.items l))
    (hus : bare = true → ¬ StartsDefinition us) :
    ∃ l', Spells (ts ++ us) (.items l') ∧ l'.map Item.bare = (x :: l).map Item.bare := by
  by_cases hfn : bare = true ∧ us.head?.map Token.kind = some .fnWord
  · obtain ⟨rfl, hhead⟩ := hfn
    cases h' with
    | noItems => cases hhead
    | semicolon hs => simp [hs] at hhead
    | @nextItem vs y _ r l hy hr =>
      obtain ⟨g, vs, rfl⟩ := List.exists_cons_of_ne_nil (hy.ne_nil rfl)
      obtain ⟨_, _, y', ⟨⟩, hcall, hbare⟩ :=
        hy.call_of_fn hhead fun hstarts => hus rfl (hstarts.append r)
      have hg : g.kind = .fnWord := Option.some.inj hhead
      obtain ⟨x', hclosed, hbare'⟩ := h.close hg
      refine ⟨x' :: y' :: l, ?_, by simp [hbare, hbare']⟩
      have hitems := Spells.nextItem hclosed (.nextItem hcall hr (by simp)) (by simp)
      simpa using hitems
  · refine ⟨x :: l, .nextItem h h' fun hbare t ht hk => hfn ⟨hbare, ?_⟩, rfl⟩
    rw [Option.mem_def.mp ht, Option.map_some, hk]

/-- The tokens spell the phrase, up to the places of its parts. An item can end without a `fn` now,
    unless a definition comes after it. -/
def SpellsBefore (rest ts : List Token) : Phrase → Prop
  | .item x bare => ∃ x' bare', Spells ts (.item x' bare') ∧ x'.bare = x.bare ∧
      (bare' = true → bare = true ∨ ¬ StartsDefinition rest)
  | p => SpellsBare ts p

namespace SpellsBefore

variable {rest ts us : List Token}

theorem of_bare {p : Phrase} (h : SpellsBare ts p) : SpellsBefore rest ts p := by
  cases p with
  | item x bare =>
    obtain ⟨x', hx, hbare⟩ := h
    exact ⟨x', bare, hx, hbare, .inl⟩
  | _ => exact h

theorem of_spells {p : Phrase} (h : Spells ts p) : SpellsBefore rest ts p := .of_bare h.bare

/-- Nothing can be left out where there are no `fn` and `end`. -/
theorem of_plain {p : Phrase} (h : Spells ts p) (hts : Plain ts)
    (hus : LeavesOut rest false ts us) : SpellsBefore rest us p := by
  rw [hus.eq_of_plain hts]
  exact .of_spells h

/-- A definition without its `fn`. -/
theorem opened {x : Item} (h : SpellsBare ts (.item x true)) (hrest : ¬ StartsDefinition rest) :
    SpellsBefore rest ts (.item x false) := by
  obtain ⟨x', hx, hbare⟩ := h
  exact ⟨x', true, hx, hbare, fun _ => .inr hrest⟩

/-- An item before items of which some `fn` are left out. -/
theorem cons_items {r r' : List Token} {x : Item} {bare : Bool} {l : List Item}
    (hx : SpellsBefore (r ++ rest) ts (.item x bare)) (hr : SpellsBare r' (.items l))
    (hfn : bare = true → ∀ t ∈ r.head?, t.kind ≠ .fnWord) (hr' : LeavesOut rest false r r') :
    SpellsBare (ts ++ r') (.items (x :: l)) := by
  obtain ⟨x', bare', hx', hbare, hnext⟩ := hx
  obtain ⟨l', hl', hbares⟩ := hr
  have hstarts (hb : bare' = true) : ¬ StartsDefinition r' := by
    intro hstart
    have hr := hr'.startsDefinition hstart
    rcases hnext hb with hbare | hnot
    · exact hr.not_head_ne (hfn hbare)
    · exact hnot (hr.append rest)
  obtain ⟨l'', hl'', hbares'⟩ := hx'.cons_items hl' hstarts
  exact ⟨l'', hl'', by rw [hbares', List.map_cons, List.map_cons, hbare, hbares]⟩

end SpellsBefore

/-- Leaving out some `fn` after `end` that do not come before a definition makes no difference. -/
theorem Spells.leaveOut {ts us rest : List Token} {p : Phrase} (h : Spells ts p)
    (hus : LeavesOut rest false ts us) : SpellsBefore rest us p := by
  by_cases hplain : p.plain = true
  · exact .of_plain h (h.plain hplain) hus
  rw [Bool.not_eq_true] at hplain
  induction h generalizing rest us with
  | assign hv hq he =>
    exact .of_plain (.assign hv hq he) (by simp [hv.plain rfl, hq, he.plain rfl, Kind.encloses]) hus
  | call hn ho ha =>
    exact .of_plain (.call hn ho ha) (by simp [hn, ho, ha.plain rfl, Kind.encloses]) hus
  | moduleCall hm hd hn ho ha =>
    exact .of_plain (.moduleCall hm hd hn ho ha)
      (by simp [hm, hd, hn, ho, ha.plain rfl, Kind.encloses]) hus
  | fnModuleCall hf hm hd hn ho ha =>
    obtain ⟨_, rfl, hrest⟩ := hus.cons_inv (.inl rfl)
    rw [hrest.eq_of_plain (by simp [hm, hd, hn, ho, ha.plain rfl, Kind.encloses])]
    exact .of_spells (.fnModuleCall hf hm hd hn ho ha)
  | breakLoop ht => exact .of_plain (.breakLoop ht) (by simp [ht, Kind.encloses]) hus
  | endCode ht => exact .of_plain (.endCode ht) (by simp [ht, Kind.encloses]) hus
  | block _ ih => exact .of_bare (.block (ih hus rfl))
  | @ifItem ts s span _ ih =>
    have hs : SpellsBare us (.ifStmt s span) := ih hus rfl
    exact .of_bare (.ifItem hs)
  | whileLoop hw ho hc hp _ _ ih =>
    obtain ⟨b', rfl, hb⟩ := hus.header (by simp [hw, ho, hc.plain rfl, hp, Kind.encloses])
    exact .of_bare (.whileLoop hw ho hc.bare hp (ih hb rfl))
  | @forLoop w o d dest m s src p b body hw ho hd hm hs hp _ _ _ ih =>
    have hshape (zs : List Token) : d ++ m :: (s ++ p :: zs) = d ++ m :: s ++ p :: zs := by simp
    rw [hshape] at hus
    obtain ⟨b', rfl, hb⟩ := hus.header
      (by simp [hw, ho, hd.plain rfl, hm, hs.plain rfl, hp, Kind.encloses])
    rw [← hshape]
    exact .of_bare (.forLoop hw ho hd.bare hm hs.bare hp (ih hb rfl))
  | ifStmt hw ho hc hp hb _ _ ihb ihr =>
    obtain ⟨_, rfl, hback⟩ := hus.header (by simp [hw, ho, hc.plain rfl, hp, Kind.encloses])
    obtain ⟨b', r', rfl, hb', hr'⟩ := hback.append_inv
    rw [hb.afterEnd_eq _ rfl] at hr'
    exact .of_bare (.ifStmt hw ho hc.bare hp (ihb hb' rfl) (ihr hr' rfl))
  | noElse =>
    rw [hus.eq_of_nil]
    exact .of_spells .noElse
  | elseIf he _ ih =>
    obtain ⟨us', rfl, hrest⟩ := hus.cons_plain (by rw [he]; rfl)
    exact .of_bare (.elseIf he (ih hrest rfl))
  | elseBody he _ ih =>
    obtain ⟨us', rfl, hrest⟩ := hus.cons_plain (by rw [he]; rfl)
    exact .of_bare (.elseBody he (ih hrest rfl))
  | body ho hl hc ih =>
    obtain ⟨_, rfl, hrest⟩ := hus.cons_plain (by rw [ho]; rfl)
    obtain ⟨ts', us', rfl, hts, hus⟩ := hrest.append_inv
    rw [hus.eq_of_plain (by simp [hc, Kind.encloses])]
    exact .of_bare (.body ho (ih hts rfl) hc)
  | @fnEnd f n o ps params is l e hf hn ho hps _ he _ ih =>
    have hfront : Plain (n :: o :: ps) := by simp [hn, ho, hps.plain rfl, Kind.encloses]
    obtain ⟨is', _, rfl, his, hnil⟩ := hus.definition hf hfront he
    rw [hnil.eq_of_nil]
    exact .of_bare (.fnEnd hf hn ho hps (ih his rfl) he rfl)
  | @fnEndFn f n o ps params is l e g hf hn ho hps _ he hg _ ih =>
    have hfront : Plain (n :: o :: ps) := by simp [hn, ho, hps.plain rfl, Kind.encloses]
    obtain ⟨is', _, rfl, his, hclose⟩ := hus.definition hf hfront he
    cases hclose with
    | keep hnil =>
      rw [hnil.eq_of_nil]
      exact .of_bare (.fnEndFn hf hn ho hps (ih his rfl) he hg rfl)
    | drop _ hstarts hnil =>
      rw [hnil.eq_of_nil]
      exact .opened (.fnEnd hf hn ho hps (ih his rfl) he rfl) hstarts
  | noItems =>
    rw [hus.eq_of_nil]
    exact .of_spells .noItems
  | semicolon hs _ ih =>
    obtain ⟨_, rfl, hrest⟩ := hus.cons_plain (by rw [hs]; rfl)
    exact .of_bare (.semicolon hs (ih hrest rfl))
  | nextItem hx hr hfn ihx ihr =>
    obtain ⟨ts', r', rfl, hts, hrest⟩ := hus.append_inv
    rw [hx.afterEnd_eq _ rfl] at hrest
    have hr' := hrest.of_head hfn
    exact .of_bare ((ihx hts rfl).cons_items (ihr hr' rfl) hfn hr')
  | _ => cases hplain

/-- Without its closing `fn` a definition does not come before another one: the `fn` of that would
    be taken for the closing one, and its `end` be left over. -/
theorem not_spells_before_definition {ts us : List Token} {e g : Token} {l l' : List Item}
    (he : e.kind = .endWord) (hg : g.kind = .fnWord) (h : Spells (ts ++ e :: g :: us) (.items l))
    (hus : StartsDefinition us) : ¬ Spells (ts ++ e :: us) (.items l') := by
  intro h'
  have hwith := h.balanced []
  have hwithout := h'.balanced []
  have hendings : endings (ts ++ e :: g :: us) = endings (ts ++ e :: us) := by
    simp [endings, List.countP_cons, hg]
  have hone : openings true (g :: us) = openings true us + 1 := by
    cases us with
    | nil => simp [StartsDefinition] at hus
    | cons u us =>
      rw [openings_cons (.inl rfl), openings_cons (.inl rfl), hg, decide_eq_false (by decide),
        openings, if_pos ⟨rfl, hus⟩, Nat.add_comm]
  rw [List.append_nil, openings, Nat.add_zero, openings_append_end he, hone] at hwith
  rw [List.append_nil, openings, Nat.add_zero, openings_append_end he] at hwithout
  omega

namespace LeavesOut

theorem refl (closed : Bool) (ts : List Token) : LeavesOut [] closed ts ts := by
  induction ts generalizing closed with
  | nil => exact .nil
  | cons t ts ih => exact .keep (ih _)

/-- One `fn` after an `end` is left out. -/
theorem one {ts us : List Token} {e g : Token} (he : e.kind = .endWord) (hg : g.kind = .fnWord)
    (hus : ¬ StartsDefinition us) (closed : Bool) :
    LeavesOut [] closed (ts ++ e :: g :: us) (ts ++ e :: us) := by
  induction ts generalizing closed with
  | nil =>
    have hdrop : LeavesOut [] true (g :: us) us := .drop hg (by rwa [List.append_nil]) (refl _ _)
    rw [← decide_eq_true he] at hdrop
    exact .keep hdrop
  | cons t ts ih => exact .keep (ih _)

end LeavesOut

/-! ## Tokens with the same faces -/

/-- Tokens that differ are changed into others of the same kinds and characters. -/
theorem exists_keepsText {ts us : List Token} (hts : ts.Nodup) (h : us.map face = ts.map face) :
    ∃ f, Token.KeepsText f ∧ ts.map f = us := by
  induction ts generalizing us with
  | nil =>
    rw [List.map_nil, List.map_eq_nil_iff] at h
    exact ⟨id, ⟨fun _ => rfl, fun _ => rfl⟩, h.symm⟩
  | cons t ts ih =>
    obtain ⟨u, us, rfl, hu, hus⟩ := List.map_eq_cons_iff.mp h
    obtain ⟨hnot, hts⟩ := List.nodup_cons.mp hts
    obtain ⟨f, hf, rfl⟩ := ih hts hus
    obtain ⟨hkind, hlexeme⟩ := Prod.mk.inj hu
    refine ⟨Function.update f t u, ⟨fun v => ?_, fun v => ?_⟩, ?_⟩
    · by_cases hv : v = t
      · rw [hv, Function.update_self, hkind]
      · rw [Function.update_of_ne hv, hf.kind]
    · by_cases hv : v = t
      · rw [hv, Function.update_self, hlexeme]
      · rw [Function.update_of_ne hv, hf.lexeme]
    · rw [List.map_cons, Function.update_self]
      refine congrArg (u :: ·) (List.map_congr_left fun v hv => ?_)
      have hne : v ≠ t := fun heq => hnot (heq ▸ hv)
      exact Function.update_of_ne hne u f

theorem Reader.Lexes.nodup {r : Reader} {ts : List Token} (h : r.Lexes ts) : ts.Nodup :=
  List.Nodup.of_map (fun t => t.span.start)
    (List.pairwise_map.mpr (h.increasing.2.imp Position.Before.ne))

theorem Reader.Lexes.nodup_solid {r : Reader} {ts : List Token} (h : r.Lexes ts) :
    (solid ts).Nodup := h.nodup.sublist List.filter_sublist

/-- A text with the faces of other tokens gives what these spell, up to places. -/
theorem parse_of_faces (source : Source) {us ws : List Token} {e : Token}
    (h : (Reader.ofText source.text false).Lexes us) (hws : ws.Nodup) (he : e.kind = .eof)
    (hfaces : (solid us).map face = (ws ++ [e]).map face) :
    (∀ l, Spells ws (.items l) → ∃ b', parse source = .ok b' ∧
      b'.bare = (Block.ofItems l .first).bare) ∧
    (∀ b', parse source = .ok b' → ∃ l, Spells ws (.items l)) := by
  rw [List.map_append] at hfaces
  obtain ⟨vs, es, hsolid, hvs, hes⟩ := List.map_eq_append_iff.mp hfaces
  obtain ⟨e', rfl, he'⟩ := List.map_eq_singleton_iff.mp hes
  have heof : e'.kind = .eof := (congrArg Prod.fst he').trans he
  constructor
  · intro l hl
    obtain ⟨f, hf, hmap⟩ := exists_keepsText hws hvs
    obtain ⟨l', hl', hbare⟩ := hl.elsewhere hf
    rw [hmap] at hl'
    exact ⟨_, (parse_eq_ok_of_lexes source h).mpr ⟨vs, e', l', hsolid, heof, hl', rfl⟩,
      Block.bare_ofItems_eq hbare _ _⟩
  · intro b' hb'
    obtain ⟨vs', e'', l, hsolid', -, hl, -⟩ := (parse_eq_ok_of_lexes source h).mp hb'
    obtain ⟨rfl, -⟩ := List.append_singleton_inj.mp (hsolid.symm.trans hsolid')
    have hnodup : vs.Nodup := (List.nodup_append.mp (hsolid ▸ h.nodup_solid)).1
    obtain ⟨f, hf, hmap⟩ := exists_keepsText hnodup hvs.symm
    obtain ⟨l', hl', -⟩ := hl.elsewhere hf
    exact ⟨l', hmap ▸ hl'⟩

/-! ## Definitions that end with `fn` -/

theorem Laid.stop_inj {ts : List Token} (h : Laid ts) {t u : Token} (ht : t ∈ ts) (hu : u ∈ ts)
    (hstop : t.span.stop = u.span.stop) : t = u := by
  have hne {t u : Token} (hu : u ∈ ts) (hleaves : t.Leaves u) : t.span.stop ≠ u.span.stop := by
    intro heq
    have hle := Position.le_iff.mp (h.spans u hu)
    unfold Token.Leaves Position.Before at hleaves
    rw [heq] at hleaves
    omega
  have hnodup : (ts.map fun t => t.span.stop).Nodup :=
    List.pairwise_map.mpr (h.order.imp_of_mem fun _ hu hleaves => hne hu hleaves)
  exact List.inj_on_of_nodup_map hnodup ht hu hstop

/-- The `fn` that a definition ends with comes directly after its `end`. -/
theorem Writes.closing {us vs : List Token} {f : FnDef} {g : Token} (h : Writes vs (.function f))
    (hvs : vs <:+: us) (hus : Laid us) (hg : g ∈ us) (hfn : g.kind = .fnWord)
    (hstop : g.span.stop = f.span.stop) :
    ∃ xs e ys, us = xs ++ e :: g :: ys ∧ e.kind = .endWord := by
  have hlaid : Laid vs := hus.sublist hvs.sublist
  have hextent : f.span = Token.extent vs := h.extent hlaid
  have hlast : f.span.stop = (lastSpanOf .first vs).stop := by rw [hextent, Token.extent]
  have hsame {t : Token} (ht : t ∈ vs) (hspan : lastSpanOf .first vs = t.span) : g = t :=
    hus.stop_inj hg (hvs.sublist.mem ht) (by rw [hstop, hlast, hspan])
  obtain ⟨front, back, rfl⟩ := hvs
  cases h with
  | function h =>
    cases h with
    | @fnEnd w n o ps params is l e _ _ _ _ _ he =>
      have heq : g = e := hsame (by simp) (by simp)
      rw [← heq, hfn] at he
      cases he
    | @fnEndFn w n o ps params is l e g' _ _ _ _ _ he hg' =>
      have heq : g = g' := hsame (by simp) (by simp)
      subst heq
      exact ⟨front ++ w :: n :: o :: (ps ++ is), e, back, by simp, he⟩

/-- The tokens around a `fn` that a definition ends with: the `end` before it, with trivia in
    between, and what the program is written with apart from trivia. -/
theorem exists_closing {source : Source} {b : Block} (h : parse source = .ok b) {f : FnDef}
    (hf : (Node.block b).Within (.function f)) {before after : List Token} {g : Token}
    (hts : tokenize source.text = .ok (before ++ g :: after)) (hg : g.kind = .fnWord)
    (hstop : g.span.stop = f.span.stop) :
    ∃ xs e ys last l, solid before = xs ++ [e] ∧ solid after = ys ++ [last] ∧
      e.kind = .endWord ∧ last.kind = .eof ∧ Spells (xs ++ e :: g :: ys) (.items l) ∧
      b = .ofItems l (Span.first.through (xs ++ e :: g :: ys)) := by
  have hlexes := Reader.lexes_of_tokenize hts
  obtain ⟨us, last, l, hsolid, hlast, hspell, hb⟩ := (parse_eq_ok_of_lexes source hlexes).mp h
  obtain ⟨ts', us', last', hts', hsolid', -, -, -, hnodes⟩ := spans_exact h
  obtain rfl := Except.ok.inj (hts.symm.trans hts')
  obtain ⟨rfl, -⟩ := List.append_singleton_inj.mp (hsolid.symm.trans hsolid')
  obtain ⟨vs, hvs, -, hwrites, -, -⟩ := hnodes _ hf
  have hgsolid : solid (before ++ g :: after) = solid before ++ g :: solid after := by
    rw [Token.solid_append, Token.solid_cons (by rw [hg]; rfl)]
  have hmem : g ∈ us := by
    have hall : g ∈ us ++ [last] := by rw [← hsolid, hgsolid]; simp
    rcases List.mem_append.mp hall with hmem | hmem
    · exact hmem
    · rw [List.mem_singleton.mp hmem, hlast] at hg
      cases hg
  have hlaid : Laid us :=
    hlexes.laid.sublist ((List.sublist_append_left us [last]).trans (hsolid ▸ List.filter_sublist))
  obtain ⟨xs, e, ys, rfl, he⟩ := hwrites.closing hvs hlaid hmem hg hstop
  -- the `fn` stands in the text only once
  have hnodup := hlexes.nodup_solid
  rw [hgsolid] at hnodup hsolid
  have hsplit : solid before ++ g :: solid after = xs ++ [e] ++ g :: (ys ++ [last]) := by
    rw [hsolid]
    simp
  obtain ⟨hnot, -⟩ := List.nodup_cons.mp (List.nodup_middle.mp hnodup)
  rw [List.mem_append, not_or] at hnot
  obtain ⟨hbefore, -, hafter⟩ := (List.append_cons_inj_of_notMem hnot.1 hnot.2).mp hsplit
  exact ⟨xs, e, ys, last, l, hbefore, hafter, he, hlast, hspell, hb⟩

/-- The same from the `end` on. -/
theorem spells_of_closing {source : Source} {b : Block} (h : parse source = .ok b) {f : FnDef}
    (hf : (Node.block b).Within (.function f)) {before gap after : List Token} {e g : Token}
    (hts : tokenize source.text = .ok (before ++ e :: (gap ++ g :: after))) (he : e.kind = .endWord)
    (hgap : ∀ t ∈ gap, t.kind.isTrivia = true) (hg : g.kind = .fnWord)
    (hstop : g.span.stop = f.span.stop) :
    ∃ ys last l, solid (before ++ e :: after) = solid before ++ e :: ys ++ [last] ∧
      solid after = ys ++ [last] ∧ last.kind = .eof ∧
      Spells (solid before ++ e :: g :: ys) (.items l) ∧
      b = .ofItems l (Span.first.through (solid before ++ e :: g :: ys)) := by
  have hshape : before ++ e :: (gap ++ g :: after) = before ++ e :: gap ++ g :: after := by simp
  rw [hshape] at hts
  obtain ⟨xs, e', ys, last, l, hbefore, hafter, -, hlast, hspell, hb⟩ :=
    exists_closing h hf hts hg hstop
  have hword : e.kind.isTrivia = false := by
    rw [he]
    rfl
  have hsolid : solid (before ++ e :: gap) = solid before ++ [e] := by
    rw [Token.solid_append, Token.solid_cons hword, Token.solid_eq_nil hgap]
  obtain ⟨rfl, rfl⟩ := List.append_singleton_inj.mp (hsolid.symm.trans hbefore)
  refine ⟨ys, last, l, ?_, hafter, hlast, hspell, hb⟩
  rw [Token.solid_append, Token.solid_cons hword, hafter]
  simp

/-- No dot comes after the `fn`. -/
theorem head_ne_dot_behind_fn {after ts us : List Token} {g last : Token} {l : List Item}
    (h : Spells (ts ++ g :: us) (.items l)) (hg : g.kind = .fnWord)
    (hafter : solid after = us ++ [last]) (hlast : last.kind = .eof) :
    ∀ t ∈ after.head?, t.kind ≠ .dot := by
  intro t ht hdot
  obtain ⟨after, rfl⟩ := List.head?_eq_some_iff.mp ht
  rw [Token.solid_cons (by rw [hdot]; rfl)] at hafter
  cases us with
  | nil =>
    obtain ⟨rfl, -⟩ := List.cons.inj hafter
    rw [hlast] at hdot
    cases hdot
  | cons u us =>
    obtain ⟨rfl, -⟩ := List.cons.inj hafter
    have hchain := (List.isChain_append.mp h.undotted).2.1
    exact (List.isChain_cons_cons.mp hchain).1 hg hdot

/-- The `fn` after an `end` may be left out of the text of a program, with the trivia in between or
    without them, unless a definition comes next. Then the program is the same, up to the places of
    its parts. Before a definition it is needed: without it the text is no program. -/
theorem parse_without_closing_fn {source : Source} {b : Block} (h : parse source = .ok b)
    {f : FnDef} (hf : (Node.block b).Within (.function f)) {before gap after : List Token}
    {e g : Token} (hts : tokenize source.text = .ok (before ++ e :: (gap ++ g :: after)))
    (he : e.kind = .endWord) (hgap : ∀ t ∈ gap, t.kind.isTrivia = true) (hg : g.kind = .fnWord)
    (hstop : g.span.stop = f.span.stop) (name : String) {text : List Char}
    (htext : text = chars (before ++ e :: (gap ++ after)) ∨ text = chars (before ++ e :: after)) :
    (¬ StartsDefinition (solid after) →
      ∃ b', parse ⟨name, text⟩ = .ok b' ∧ b'.bare = b.bare) ∧
    (StartsDefinition (solid after) → ∀ b', parse ⟨name, text⟩ ≠ .ok b') := by
  have hlexes := Reader.lexes_of_tokenize hts
  obtain ⟨ys, last, l, hkept, hafter, hlast, hspell, rfl⟩ :=
    spells_of_closing h hf hts he hgap hg hstop
  have hdot : ∀ t ∈ after.head?, t.kind ≠ .dot := by
    rw [List.append_cons] at hspell
    exact head_ne_dot_behind_fn hspell hg hafter hlast
  obtain ⟨us, hus, hfaces⟩ : ∃ us, (Reader.ofText text false).Lexes us ∧
      (solid us).map face = (solid (before ++ e :: after)).map face := by
    rcases htext with rfl | rfl
    · exact hlexes.without_fn he hg hgap hdot
    · exact hlexes.without_gap he hg
  have hnodup : (solid before ++ e :: ys).Nodup := by
    have hcut : after.Sublist (gap ++ g :: after) :=
      (List.sublist_cons_self g after).trans (List.sublist_append_right _ _)
    have hall : (solid (before ++ e :: after)).Nodup :=
      (hlexes.nodup.sublist ((hcut.cons_cons e).append_left before)).sublist List.filter_sublist
    exact (List.nodup_append.mp (hkept ▸ hall)).1
  rw [hkept] at hfaces
  obtain ⟨hparse, hspells⟩ := parse_of_faces ⟨name, text⟩ hus hnodup hlast hfaces
  have hstarts : StartsDefinition (solid after) ↔ StartsDefinition ys := by
    rw [hafter, StartsDefinition, List.map_append]
    exact prefix_append_iff (by simp [hlast])
  rw [hstarts]
  constructor
  · intro hys
    obtain ⟨l', hl', hbare⟩ := hspell.leaveOut (.one he hg hys false)
    obtain ⟨b', hb', hsame⟩ := hparse l' hl'
    exact ⟨b', hb', hsame.trans (Block.bare_ofItems_eq hbare _ _)⟩
  · intro hys b' hb'
    obtain ⟨l', hl'⟩ := hspells b' hb'
    exact not_spells_before_definition he hg hspell hys hl'

/-- Tokens that start with an `end`, one piece of trivia and the `fn` that stops at `stop`. -/
def StartsClosing (stop : Position) : List Token → Bool
  | e :: w :: g :: _ =>
    e.kind = .endWord && w.kind.isTrivia && g.kind = .fnWord && g.span.stop = stop
  | _ => false

theorem StartsClosing.cut {stop : Position} {ts : List Token} {i : Nat}
    (h : StartsClosing stop (ts.drop i) = true) :
    ∃ before gap after e g, ts = before ++ e :: (gap ++ g :: after) ∧ e.kind = .endWord ∧
      (∀ t ∈ gap, t.kind.isTrivia = true) ∧ g.kind = .fnWord ∧ g.span.stop = stop ∧
      before ++ [e] = ts.take (i + 1) ∧ before ++ e :: gap = ts.take (i + 2) ∧
      after = ts.drop (i + 3) := by
  unfold StartsClosing at h
  split at h
  · next e w g rest hdrop =>
    simp only [Bool.and_eq_true, decide_eq_true_eq] at h
    obtain ⟨⟨⟨he, hw⟩, hg⟩, hstop⟩ := h
    refine ⟨ts.take i, [w], rest, e, g, ?_, he, by simpa using hw, hg, hstop, ?_, ?_, ?_⟩
    · exact (hdrop ▸ List.take_append_drop i ts).symm
    · rw [List.take_add, hdrop]
      rfl
    · rw [List.take_add, hdrop]
      rfl
    · rw [← List.drop_drop, hdrop]
      rfl
  · cases h

theorem Node.within_function {b : Block} {i : Nat} {f : FnDef} (h : b.functions[i]? = some f) :
    (Node.block b).Within (.function f) :=
  .single (by simp [Node.children, Node.rows, List.mem_of_getElem? h])

/-- A definition in a definition, and one after it. A call that starts with `fn` comes after the
    inner one. -/
def threeDefinitions : Source :=
  .ofString "p" "fn g() fn h() end fn\nfn m.p(1) end fn\nfn k() end"

/-- After the inner definition the `fn` can be left out: that of the call is taken instead. After
    the outer one it is needed. -/
theorem parse_without_closing_fn_nested :
    ∃ b b', parse threeDefinitions = .ok b ∧
      parse (.ofString "p" "fn g() fn h() end\nfn m.p(1) end fn\nfn k() end") = .ok b' ∧
      b'.bare = b.bare ∧
      ∀ c, parse (.ofString "p" "fn g() fn h() end fn\nfn m.p(1) end \nfn k() end") ≠ .ok c := by
  have hlex : (tokenize threeDefinitions.text).toOption.any (fun ts =>
      StartsClosing ⟨1, 20⟩ (ts.drop 12) && StartsClosing ⟨2, 16⟩ (ts.drop 25) &&
      !StartsDefinition (solid (ts.drop 15)) && StartsDefinition (solid (ts.drop 28)) &&
      "fn g() fn h() end\nfn m.p(1) end fn\nfn k() end".toList =
        chars (ts.take 13 ++ ts.drop 15) &&
      "fn g() fn h() end fn\nfn m.p(1) end \nfn k() end".toList =
        chars (ts.take 27 ++ ts.drop 28)) = true := by
    decide +kernel
  have hparse : (parse threeDefinitions).toOption.any (fun b => b.functions[0]?.any fun f =>
      f.span.stop = ⟨2, 16⟩ && f.body.functions[0]?.any fun h => h.span.stop = ⟨1, 20⟩) = true := by
    decide +kernel
  obtain ⟨ts, hts, htokens⟩ := exists_ok_of_any hlex
  obtain ⟨b, hb, hfunctions⟩ := exists_ok_of_any hparse
  simp only [Bool.and_eq_true, Bool.not_eq_true', decide_eq_true_eq, decide_eq_false_iff_not]
    at htokens
  obtain ⟨⟨⟨⟨⟨hinner, houter⟩, hcall⟩, hdefinition⟩, hshort⟩, hbroken⟩ := htokens
  obtain ⟨f, hf, hbody⟩ := (Option.any_eq_true _ _).mp hfunctions
  obtain ⟨hstop, hinside⟩ := Bool.and_eq_true_iff.mp hbody
  obtain ⟨k, hk, hstop'⟩ := (Option.any_eq_true _ _).mp hinside
  have hwithin : (Node.block b).Within (.function f) := Node.within_function hf
  have hblock : Node.block f.body ∈ (Node.function f).children := by
    simp [Node.children, Node.rows]
  have hnested : (Node.block b).Within (.function k) :=
    (hwithin.tail hblock).trans (Node.within_function hk)
  obtain ⟨before, gap, after, e, g, rfl, he, hgap, hg, hgstop, hkept, -, hafter⟩ :=
    StartsClosing.cut hinner
  obtain ⟨before', gap', after', e', g', hcut, he', hgap', hg', hgstop', -, hkept', hafter'⟩ :=
    StartsClosing.cut houter
  rw [← hkept, ← hafter, ← List.append_cons] at hshort
  rw [← hkept', ← hafter', List.append_assoc, List.cons_append] at hbroken
  obtain ⟨b', hb', hbare⟩ := (parse_without_closing_fn hb hnested hts he hgap hg
    (hgstop.trans (of_decide_eq_true hstop').symm) "p" (.inr hshort)).1 (hafter ▸ hcall)
  have hnone := (parse_without_closing_fn hb hwithin (hts.trans (congrArg _ hcut)) he' hgap' hg'
    (hgstop'.trans (of_decide_eq_true hstop).symm) "p" (.inl hbroken)).2 (hafter' ▸ hdefinition)
  exact ⟨b, b', hb, hb', hbare, hnone⟩

/-- Two definitions. -/
def twoDefinitions : Source := .ofString "p" "fn a() end fn\nfn b() end fn"

/-- The `fn` after the first of two definitions cannot be left out, whether the blank before it
    stays or not. -/
theorem parse_without_closing_fn_fails :
    ¬ ∀ (source : Source) (b : Block) (f : FnDef) (before gap after : List Token) (e g : Token),
      parse source = .ok b → (Node.block b).Within (.function f) →
      tokenize source.text = .ok (before ++ e :: (gap ++ g :: after)) → e.kind = .endWord →
      (∀ t ∈ gap, t.kind.isTrivia = true) → g.kind = .fnWord → g.span.stop = f.span.stop →
      ∃ text b', (text = chars (before ++ e :: (gap ++ after)) ∨
          text = chars (before ++ e :: after)) ∧
        parse ⟨source.name, text⟩ = .ok b' ∧ b'.bare = b.bare := by
  intro hclaim
  have hlex : (tokenize twoDefinitions.text).toOption.any (fun ts =>
      StartsClosing ⟨1, 13⟩ (ts.drop 6) &&
      !(parse ⟨"p", chars (ts.take 8 ++ ts.drop 9)⟩).toOption.isSome &&
      !(parse ⟨"p", chars (ts.take 7 ++ ts.drop 9)⟩).toOption.isSome) = true := by
    decide +kernel
  have hparse : (parse twoDefinitions).toOption.any (fun b =>
      b.functions[0]?.any fun f => f.span.stop = ⟨1, 13⟩) = true := by
    decide +kernel
  obtain ⟨ts, hts, htokens⟩ := exists_ok_of_any hlex
  obtain ⟨b, hb, hfunctions⟩ := exists_ok_of_any hparse
  obtain ⟨f, hf, hstop⟩ := (Option.any_eq_true _ _).mp hfunctions
  simp only [Bool.and_eq_true, Bool.not_eq_true'] at htokens
  obtain ⟨⟨hclosing, hkeeping⟩, hclosed⟩ := htokens
  obtain ⟨before, gap, after, e, g, rfl, he, hgap, hg, hgstop, hkept, hkept', hafter⟩ :=
    StartsClosing.cut hclosing
  obtain ⟨text, b', htext, hb', -⟩ := hclaim twoDefinitions b f before gap after e g hb
    (Node.within_function hf) hts he hgap hg (hgstop.trans (of_decide_eq_true hstop).symm)
  have hname : twoDefinitions.name = "p" := rfl
  rw [← hkept', ← hafter, List.append_assoc, List.cons_append] at hkeeping
  rw [← hkept, ← hafter, ← List.append_cons] at hclosed
  rw [hname] at hb'
  rcases htext with rfl | rfl
  · rw [hb'] at hkeeping
    cases hkeeping
  · rw [hb'] at hclosed
    cases hclosed

end TierScript
