import Mathlib.Data.List.Nodup
import TierScript.Proofs.Host.Caches
import TierScript.Proofs.Host.Service

/-!
# Registrations

What a registry finds after any registrations, and what a module finds after any additions.

* `Callable.Finds`: a look-up that gives the latest, or the earliest, callable that takes exactly
  the number of arguments, and else the one that takes any number.
* `Registry.Indexed`: the tables of a registry list every slot and every module under its name.
* `Registry.Keeps`: slots and ids of modules that were handed out mean the same.
* `registrations_exact`: all registrations keep the tables so, a registry finds the latest callable
  and a module the earliest.
-/

namespace TierScript

/-! ## Choosing among callables -/

namespace Callable

variable {rank : Nat → Nat → Prop} {cs : List Callable} {name : String} {arity : Arity}

/-- At the index `i` there is a callable with the given name and arity. -/
def Offered (cs : List Callable) (name : String) (arity : Arity) (i : Nat) : Prop :=
  ∃ c, cs[i]? = some c ∧ c.name = name ∧ c.arity = arity

/-- Of all callables with the given name and arity, the one at `i` is ranked last. -/
structure Preferred (rank : Nat → Nat → Prop) (cs : List Callable) (name : String) (arity : Arity)
    (i : Nat) : Prop where
  offered : Offered cs name arity i
  last : ∀ j, Offered cs name arity j → rank j i

/-- The callable at `i` is preferred among those that take exactly `count` arguments, or there are
    none of these and it is preferred among those that take any number. -/
def Selected (rank : Nat → Nat → Prop) (cs : List Callable) (name : String) (count i : Nat) :
    Prop :=
  Preferred rank cs name (.exact count) i ∨
    (∀ j, ¬ Offered cs name (.exact count) j) ∧ Preferred rank cs name .any i

/-- The look-up gives the index of the callable that is selected, if there is one that can take the
    arguments at all. -/
structure Finds (rank : Nat → Nat → Prop) (cs : List Callable)
    (find : String → Nat → Option Nat) : Prop where
  found : ∀ name count i, find name count = some i ↔ Selected rank cs name count i
  missing : ∀ name count, find name count = none ↔
    ∀ c ∈ cs, c.name = name → c.arity ≠ .exact count ∧ c.arity ≠ .any

/-- The look-up by arity gives the index of the preferred callable, if there is one. -/
structure Picks (rank : Nat → Nat → Prop) (cs : List Callable)
    (pick : String → Arity → Option Nat) : Prop where
  found : ∀ name arity i, pick name arity = some i ↔ Preferred rank cs name arity i
  missing : ∀ name arity, pick name arity = none ↔ ∀ i, ¬ Offered cs name arity i

theorem offered_iff_getElem {i : Nat} :
    Offered cs name arity i ↔
      ∃ h : i < cs.length, (cs[i].name == name && cs[i].arity == arity) = true := by
  simp only [Bool.and_eq_true, beq_iff_eq]
  constructor
  · rintro ⟨c, hc, hname, harity⟩
    obtain ⟨hi, rfl⟩ := List.getElem?_eq_some_iff.mp hc
    exact ⟨hi, hname, harity⟩
  · rintro ⟨hi, hname, harity⟩
    exact ⟨cs[i], List.getElem?_eq_getElem hi, hname, harity⟩

theorem not_offered_iff :
    (∀ i, ¬ Offered cs name arity i) ↔ ∀ c ∈ cs, c.name = name → c.arity ≠ arity := by
  constructor
  · intro h c hc hname harity
    obtain ⟨i, hi⟩ := List.mem_iff_getElem?.mp hc
    exact h i ⟨c, hi, hname, harity⟩
  · rintro h i ⟨c, hi, hname, harity⟩
    exact h c (List.mem_of_getElem? hi) hname harity

/-- First by the exact number of arguments, and then by any number. -/
theorem Picks.finds {pick : String → Arity → Option Nat} (h : Picks rank cs pick) :
    Finds rank cs fun name count => (pick name (.exact count)).or (pick name .any) where
  found name count i := by
    rw [Option.or_eq_some_iff, h.found, h.missing, h.found]
    rfl
  missing name count := by
    rw [Option.or_eq_none_iff, h.missing, h.missing, not_offered_iff, not_offered_iff]
    constructor
    · intro hboth c hc hname
      exact ⟨hboth.1 c hc hname, hboth.2 c hc hname⟩
    · intro hnone
      exact ⟨fun c hc hname => (hnone c hc hname).1, fun c hc hname => (hnone c hc hname).2⟩

end Callable

/-! ## Modules -/

/-- What can be added to a module. -/
inductive Addition where
  | callable (c : Callable)
  | program (p : Linked Block)

/-- The callables that are added, in order. -/
def Addition.callables : Addition → List Callable
  | .callable c => [c]
  | .program p => p.node.functions.map fun f => .script ⟨p.program, f⟩

namespace Module

open Callable (Offered Preferred Picks Finds)

/-- Makes an addition. -/
def extend (m : Module) : Addition → Module
  | .callable c => m.add c
  | .program p => m.addProgram p

theorem functions_foldl_extend (m : Module) (adds : List Addition) :
    (adds.foldl extend m).functions = m.functions ++ adds.flatMap Addition.callables := by
  induction adds generalizing m with
  | nil => simp
  | cons a adds ih =>
    have hstep : (m.extend a).functions = m.functions ++ a.callables := by
      cases a <;> rfl
    rw [List.foldl_cons, ih, hstep, List.flatMap_cons, List.append_assoc]

/-- The first callable with a name and an arity is the earliest. -/
theorem picks_indexOf? (m : Module) : Picks (· ≥ ·) m.functions m.indexOf? where
  found name arity i := by
    rw [indexOf?, List.findIdx?_eq_some_iff_getElem]
    constructor
    · rintro ⟨hi, hmatch, hfirst⟩
      refine ⟨Callable.offered_iff_getElem.mpr ⟨hi, hmatch⟩, fun j hj => ?_⟩
      obtain ⟨hlt, hmatch'⟩ := Callable.offered_iff_getElem.mp hj
      exact Nat.le_of_not_lt fun hji => hfirst j hji hmatch'
    · rintro ⟨hoffered, hlast⟩
      obtain ⟨hi, hmatch⟩ := Callable.offered_iff_getElem.mp hoffered
      refine ⟨hi, hmatch, fun j hji hmatch' => ?_⟩
      have hge := hlast j (Callable.offered_iff_getElem.mpr ⟨Nat.lt_trans hji hi, hmatch'⟩)
      exact Nat.not_lt.mpr hge hji
  missing name arity := by
    rw [indexOf?, List.findIdx?_eq_none_iff, Callable.not_offered_iff]
    simp only [Bool.and_eq_false_imp, beq_iff_eq, beq_eq_false_iff_ne]

theorem finds_resolve? (m : Module) : Finds (· ≥ ·) m.functions m.resolve? :=
  m.picks_indexOf?.finds

/-- A module made from the functions of a program finds what the program finds. -/
theorem resolve?_addProgram (module : String) (p : Linked Block) (name : String) (count : Nat) :
    ((({ name := module } : Module).addProgram p).resolve? name count).bind
        ((({ name := module } : Module).addProgram p).functions[·]?) =
      (findFunction? p.node.functions name count).map fun f => .script ⟨p.program, f⟩ := by
  let m : Module := ({ name := module } : Module).addProgram p
  have hfunctions : m.functions =
      p.node.functions.map fun f => Callable.script ⟨p.program, f⟩ := List.nil_append _
  -- a function of a program takes a fixed number of arguments
  have hany : m.indexOf? name .any = none := by
    rw [indexOf?, hfunctions, List.findIdx?_map, List.findIdx?_eq_none_iff]
    intro f _
    exact Bool.and_eq_false_imp.mpr fun _ => rfl
  have hexact : (m.indexOf? name (.exact count)).bind (m.functions[·]?) =
      (findFunction? p.node.functions name count).map fun f => .script ⟨p.program, f⟩ := by
    rw [indexOf?, ← List.find?_eq_bind_findIdx?_getElem?, hfunctions, List.find?_map]
    congr 2
    funext f
    show (f.name == name && Arity.exact f.arity == .exact count) = _
    rw [Bool.eq_iff_iff]
    simp
  show (m.resolve? name count).bind (m.functions[·]?) = _
  rw [resolve?, hany, Option.or_none, hexact]

end Module

/-! ## Registries -/

/-- A call that changes a registry, with the generation it has afterwards. -/
inductive Registration where
  | callable (generation : Nat) (c : Callable)
  | module (generation : Nat) (m : Module)

/-- The callable that is registered. -/
def Registration.callable? : Registration → Option Callable
  | .callable _ c => some c
  | .module .. => none

namespace Registry

open Callable (Offered Preferred Picks Finds)

variable {r r' r'' : Registry} {name : String} {slot generation : Nat} {c : Callable} {m : Module}

/-- Makes a registration. -/
def perform (r : Registry) : Registration → Except EvalError Unit × Registry
  | .callable generation c => (.ok (), r.register generation c)
  | .module generation m =>
    match r.registerModule generation m with
    | .error e => (.error e, r)
    | .ok r' => (.ok (), r')

/-- What the registrations leave. -/
def after (r : Registry) (regs : List Registration) : Registry :=
  regs.foldl (fun r reg => (r.perform reg).2) r

/-- The tables list every slot once, under the name of its callable and the latest first, and every
    module under its name, which no other module has. -/
structure Indexed (r : Registry) : Prop where
  keys : (r.byName.map Prod.fst).Nodup
  listed : (r.byName.flatMap Prod.snd).Perm (List.range r.slots.size)
  named : ∀ e ∈ r.byName, ∀ slot ∈ e.2, ∃ c, r.slots[slot]? = some c ∧ c.name = e.1
  descending : ∀ e ∈ r.byName, e.2.Pairwise (· > ·)
  moduleNames : (r.modules.toList.map Module.name).Nodup
  moduleIds : ∀ name id, r.moduleId? name = some id ↔
    ∃ m, r.modules[id]? = some m ∧ m.name = name

/-- The slots and the ids of modules mean the same in both. -/
structure Keeps (r r' : Registry) : Prop where
  slots : ∀ (slot : Nat) c, r.slots[slot]? = some c → r'.slots[slot]? = some c
  modules : ∀ (id : Nat) m, r.modules[id]? = some m → r'.modules[id]? = some m
  moduleIds : ∀ name id, r.moduleId? name = some id → r'.moduleId? name = some id

/-- What holds of a registry when the callables `cs` were registered, in this order: it finds the
    latest of them, its tables are in order, later registrations change nothing that was handed out,
    and exactly the modules whose name is taken are turned away. -/
structure Implements (r : Registry) (cs : List Callable) : Prop where
  slots : r.slots.toList = cs
  finds : Finds (· ≤ ·) cs r.resolve?
  indexed : r.Indexed
  keeps : ∀ later, r.Keeps (r.after later)
  refuses : ∀ generation m e, r.registerModule generation m = .error e ↔
    e = .duplicateModule m.name ∧ m.name ∈ r.modules.toList.map Module.name

/-! ### Slots -/

theorem mem_addSlot {l : List (String × List Nat)} {e : String × List Nat}
    (h : e ∈ addSlot name slot l) :
    e ∈ l ∨ e = (name, [slot]) ∨ ∃ slots, (name, slots) ∈ l ∧ e = (name, slot :: slots) := by
  induction l with
  | nil => exact .inr (.inl (List.mem_singleton.mp h))
  | cons x l ih =>
    obtain ⟨key, slots⟩ := x
    rw [addSlot] at h
    split at h
    · next hkey =>
      subst hkey
      rcases List.mem_cons.mp h with rfl | h
      · exact .inr (.inr ⟨slots, List.mem_cons_self, rfl⟩)
      · exact .inl (List.mem_cons_of_mem _ h)
    · rcases List.mem_cons.mp h with rfl | h
      · exact .inl List.mem_cons_self
      · rcases ih h with hold | hnew | ⟨slots', hmem, hcons⟩
        · exact .inl (List.mem_cons_of_mem _ hold)
        · exact .inr (.inl hnew)
        · exact .inr (.inr ⟨slots', List.mem_cons_of_mem _ hmem, hcons⟩)

theorem mem_keys_addSlot {l : List (String × List Nat)} {key : String}
    (h : key ∈ (addSlot name slot l).map Prod.fst) : key ∈ l.map Prod.fst ∨ key = name := by
  obtain ⟨e, he, rfl⟩ := List.mem_map.mp h
  rcases mem_addSlot he with hold | rfl | ⟨slots, -, rfl⟩
  · exact .inl (List.mem_map_of_mem hold)
  · exact .inr rfl
  · exact .inr rfl

theorem nodup_keys_addSlot {l : List (String × List Nat)} (h : (l.map Prod.fst).Nodup) :
    ((addSlot name slot l).map Prod.fst).Nodup := by
  induction l with
  | nil => exact List.nodup_singleton name
  | cons x l ih =>
    obtain ⟨key, slots⟩ := x
    rw [List.map_cons, List.nodup_cons] at h
    rw [addSlot]
    split
    · exact List.nodup_cons.mpr h
    · next hkey =>
      refine List.nodup_cons.mpr ⟨fun hmem => ?_, ih h.2⟩
      exact (mem_keys_addSlot hmem).elim h.1 hkey

theorem flatMap_addSlot_perm (name : String) (slot : Nat) (l : List (String × List Nat)) :
    ((addSlot name slot l).flatMap Prod.snd).Perm (slot :: l.flatMap Prod.snd) := by
  induction l with
  | nil => exact .refl _
  | cons x l ih =>
    obtain ⟨key, slots⟩ := x
    rw [addSlot]
    split
    · exact .refl _
    · exact (ih.append_left slots).trans List.perm_middle

theorem getElem?_push_of_some {α : Type} {xs : Array α} {i : Nat} {a : α} (h : xs[i]? = some a)
    (b : α) : (xs.push b)[i]? = some a := by
  have hlt : i < xs.size := (Array.getElem?_eq_some_iff.mp h).1
  rw [Array.getElem?_push, if_neg (Nat.ne_of_lt hlt), h]

/-- A new slot comes first among those of its name. -/
theorem Indexed.register (h : r.Indexed) (generation : Nat) (c : Callable) :
    (r.register generation c).Indexed where
  keys := nodup_keys_addSlot h.keys
  listed := by
    have hlisted := (flatMap_addSlot_perm c.name r.slots.size r.byName).trans
      (h.listed.cons r.slots.size)
    show ((addSlot c.name r.slots.size r.byName).flatMap Prod.snd).Perm
      (List.range (r.slots.push c).size)
    rw [Array.size_push, List.range_succ]
    exact hlisted.trans (List.perm_append_singleton _ _).symm
  named := by
    have hkept (key : String) (slots : List Nat) (he : (key, slots) ∈ r.byName) :
        ∀ slot ∈ slots, ∃ d, (r.slots.push c)[slot]? = some d ∧ d.name = key := by
      intro slot hslot
      obtain ⟨d, hd, hname⟩ := h.named _ he slot hslot
      exact ⟨d, getElem?_push_of_some hd c, hname⟩
    have hnew : ∃ d, (r.slots.push c)[r.slots.size]? = some d ∧ d.name = c.name :=
      ⟨c, Array.getElem?_push_size, rfl⟩
    intro e he
    rcases mem_addSlot he with hold | rfl | ⟨slots, hmem, rfl⟩
    · exact hkept e.1 e.2 hold
    · exact List.forall_mem_singleton.mpr hnew
    · exact List.forall_mem_cons.mpr ⟨hnew, hkept _ _ hmem⟩
  descending := by
    intro e he
    rcases mem_addSlot he with hold | rfl | ⟨slots, hmem, rfl⟩
    · exact h.descending e hold
    · exact List.pairwise_singleton _ _
    · refine List.pairwise_cons.mpr ⟨fun slot hslot => ?_, h.descending _ hmem⟩
      obtain ⟨d, hd, -⟩ := h.named _ hmem slot hslot
      exact (Array.getElem?_eq_some_iff.mp hd).1
  moduleNames := h.moduleNames
  moduleIds := h.moduleIds

/-! ### Modules -/

theorem registerModule_eq_ok_iff :
    r.registerModule generation m = .ok r' ↔ r.moduleId? m.name = none ∧
      r' = { r with
        generation
        modules := r.modules.push m
        moduleIds := (m.name, r.modules.size) :: r.moduleIds } := by
  unfold registerModule
  cases r.moduleId? m.name with
  | some id => simp
  | none => simp [eq_comm]

theorem moduleId?_registerModule (hr : r.registerModule generation m = .ok r') (name : String) :
    r'.moduleId? name = if name = m.name then some r.modules.size else r.moduleId? name := by
  obtain ⟨-, rfl⟩ := registerModule_eq_ok_iff.mp hr
  show ((m.name, r.modules.size) :: r.moduleIds).lookup name = _
  rw [List.lookup_cons]
  split
  · next hname => rw [if_pos (eq_of_beq hname)]
  · next hname => rw [if_neg (ne_of_beq_false hname), moduleId?]

theorem Indexed.moduleId?_eq_none_iff (h : r.Indexed) :
    r.moduleId? name = none ↔ name ∉ r.modules.toList.map Module.name := by
  constructor
  · intro hnone hmem
    obtain ⟨m, hm, hname⟩ := List.mem_map.mp hmem
    obtain ⟨id, hid⟩ := List.mem_iff_getElem?.mp hm
    rw [Array.getElem?_toList] at hid
    rw [(h.moduleIds name id).mpr ⟨m, hid, hname⟩] at hnone
    cases hnone
  · intro hmem
    cases hid : r.moduleId? name with
    | none => rfl
    | some id =>
      obtain ⟨m, hm, hname⟩ := (h.moduleIds name id).mp hid
      exact absurd (List.mem_map.mpr ⟨m, (Array.mem_of_getElem? hm).val, hname⟩) hmem

/-- A new module is listed under its name, which was free. -/
theorem Indexed.registerModule (h : r.Indexed)
    (hr : r.registerModule generation m = .ok r') : r'.Indexed := by
  have hids := moduleId?_registerModule hr
  obtain ⟨hfree, rfl⟩ := registerModule_eq_ok_iff.mp hr
  refine ⟨h.keys, h.listed, h.named, h.descending, ?_, fun name id => ?_⟩
  · rw [Array.toList_push, List.map_append, List.nodup_append]
    refine ⟨h.moduleNames, List.nodup_singleton _, fun name hname d hd => ?_⟩
    cases List.mem_singleton.mp hd
    rintro rfl
    exact h.moduleId?_eq_none_iff.mp hfree hname
  · rw [hids]
    constructor
    · intro hid
      split at hid
      · next hname =>
        cases hid
        exact ⟨m, Array.getElem?_push_size, hname.symm⟩
      · obtain ⟨d, hd, hname⟩ := (h.moduleIds name id).mp hid
        exact ⟨d, getElem?_push_of_some hd m, hname⟩
    · rintro ⟨d, hd, rfl⟩
      rw [Array.getElem?_push] at hd
      split at hd
      · next hid =>
        cases hd
        rw [if_pos rfl, hid]
      · have hold := (h.moduleIds d.name id).mpr ⟨d, hd, rfl⟩
        have hne : d.name ≠ m.name := by
          intro heq
          rw [heq, hfree] at hold
          cases hold
        rw [if_neg hne, hold]

theorem Indexed.perform (h : r.Indexed) (reg : Registration) : (r.perform reg).2.Indexed := by
  cases reg with
  | callable generation c => exact h.register generation c
  | module generation m =>
    unfold Registry.perform
    dsimp only
    split
    · exact h
    · next hr => exact h.registerModule hr

theorem Indexed.after (h : r.Indexed) (regs : List Registration) : (r.after regs).Indexed := by
  induction regs generalizing r with
  | nil => exact h
  | cons reg regs ih => exact ih (h.perform reg)

/-! ### Look-ups -/

/-- The slots that are listed under a name. -/
def candidates (r : Registry) (name : String) : List Nat := (r.byName.lookup name).getD []

theorem resolve?_eq (r : Registry) (name : String) (count : Nat) :
    r.resolve? name count = (r.firstWith? (r.candidates name) (.exact count)).or
      (r.firstWith? (r.candidates name) .any) := by
  unfold resolve? candidates
  cases r.byName.lookup name <;> rfl

theorem candidates_eq_nil_or_mem (r : Registry) (name : String) :
    r.candidates name = [] ∨ (name, r.candidates name) ∈ r.byName := by
  unfold candidates
  cases hlookup : r.byName.lookup name with
  | none => exact .inl rfl
  | some slots => exact .inr (Workspace.mem_of_lookup hlookup)

theorem Indexed.candidates_of_mem (h : r.Indexed) {e : String × List Nat} (he : e ∈ r.byName) :
    r.candidates e.1 = e.2 := by
  obtain ⟨before, after, hsplit⟩ := List.append_of_mem he
  have hkeys := h.keys
  rw [hsplit, List.map_append, List.map_cons, List.nodup_append] at hkeys
  have hlookup : r.byName.lookup e.1 = some e.2 := by
    refine List.lookup_eq_some_iff.mpr ⟨before, after, hsplit, fun x hx => bne_iff_ne.mpr ?_⟩
    exact (hkeys.2.2 x.1 (List.mem_map_of_mem hx) e.1 List.mem_cons_self).symm
  rw [candidates, hlookup]
  rfl

/-- The candidates are the slots of the callables with the name. -/
theorem Indexed.mem_candidates (h : r.Indexed) :
    slot ∈ r.candidates name ↔ ∃ c, r.slots[slot]? = some c ∧ c.name = name := by
  constructor
  · intro hslot
    rcases r.candidates_eq_nil_or_mem name with hnil | hmem
    · rw [hnil] at hslot
      cases hslot
    · exact h.named _ hmem slot hslot
  · rintro ⟨c, hc, rfl⟩
    have hlt : slot < r.slots.size := (Array.getElem?_eq_some_iff.mp hc).1
    obtain ⟨e, he, hslot⟩ := List.mem_flatMap.mp (h.listed.mem_iff.mpr (List.mem_range.mpr hlt))
    obtain ⟨d, hd, hname⟩ := h.named e he slot hslot
    cases hc.symm.trans hd
    rwa [hname, h.candidates_of_mem he]

theorem Indexed.descending_candidates (h : r.Indexed) (name : String) :
    (r.candidates name).Pairwise (· > ·) := by
  rcases r.candidates_eq_nil_or_mem name with hnil | hmem
  · rw [hnil]
    exact .nil
  · exact h.descending _ hmem

/-- Along a descending list the first that is found is the greatest. -/
theorem find?_eq_some_iff_of_descending {p : Nat → Bool} {l : List Nat} (h : l.Pairwise (· > ·)) :
    l.find? p = some slot ↔ (slot ∈ l ∧ p slot = true) ∧ ∀ j, (j ∈ l ∧ p j = true) → j ≤ slot := by
  induction l with
  | nil => simp
  | cons a l ih =>
    rw [List.pairwise_cons] at h
    rw [List.find?_cons]
    cases hp : p a with
    | true =>
      constructor
      · rintro ⟨⟩
        refine ⟨⟨List.mem_cons_self, hp⟩, fun j hj => ?_⟩
        rcases List.mem_cons.mp hj.1 with rfl | hmem
        · exact Nat.le_refl _
        · exact Nat.le_of_lt (h.1 j hmem)
      · rintro ⟨⟨hmem, -⟩, hlast⟩
        rcases List.mem_cons.mp hmem with rfl | hmem
        · rfl
        · exact absurd (hlast a ⟨List.mem_cons_self, hp⟩) (Nat.not_le.mpr (h.1 slot hmem))
    | false =>
      have hother {j : Nat} : (j ∈ a :: l ∧ p j = true) ↔ (j ∈ l ∧ p j = true) := by
        refine and_congr_left fun hj => ?_
        rw [List.mem_cons, or_iff_right]
        rintro rfl
        exact Bool.false_ne_true (hp.symm.trans hj)
      simp only [hother]
      exact ih h.2

theorem Indexed.offered_iff (h : r.Indexed) {arity : Arity} :
    Offered r.slots.toList name arity slot ↔
      slot ∈ r.candidates name ∧ (r.slots[slot]?.map Callable.arity == some arity) = true := by
  rw [h.mem_candidates, Offered, beq_iff_eq]
  constructor
  · rintro ⟨c, hc, hname, rfl⟩
    rw [Array.getElem?_toList] at hc
    exact ⟨⟨c, hc, hname⟩, by rw [hc, Option.map_some]⟩
  · rintro ⟨⟨c, hc, hname⟩, harity⟩
    rw [hc, Option.map_some, Option.some_inj] at harity
    exact ⟨c, by rw [Array.getElem?_toList, hc], hname, harity⟩

/-- The first candidate with an arity is the latest. -/
theorem Indexed.picks_firstWith? (h : r.Indexed) :
    Picks (· ≤ ·) r.slots.toList fun name arity => r.firstWith? (r.candidates name) arity where
  found name arity i := by
    rw [firstWith?, find?_eq_some_iff_of_descending (h.descending_candidates name)]
    simp only [← h.offered_iff]
    exact ⟨fun ⟨hoffered, hlast⟩ => ⟨hoffered, hlast⟩, fun ⟨hoffered, hlast⟩ => ⟨hoffered, hlast⟩⟩
  missing name arity := by
    simp only [h.offered_iff]
    rw [firstWith?, List.find?_eq_none]
    simp

theorem Indexed.finds_resolve? (h : r.Indexed) : Finds (· ≤ ·) r.slots.toList r.resolve? := by
  have hfinds := h.picks_firstWith?.finds
  simp only [← resolve?_eq] at hfinds
  exact hfinds

/-- No registration at all. -/
theorem indexed_empty (generation : Nat) : ({ generation } : Registry).Indexed where
  keys := List.nodup_nil
  listed := .refl _
  named := nofun
  descending := nofun
  moduleNames := List.nodup_nil
  moduleIds := by simp [moduleId?]

theorem slots_after (r : Registry) (regs : List Registration) :
    (r.after regs).slots.toList = r.slots.toList ++ regs.filterMap Registration.callable? := by
  induction regs generalizing r with
  | nil => simp [after]
  | cons reg regs ih =>
    rw [after, List.foldl_cons, ← after, ih]
    cases reg with
    | callable generation c =>
      simp [perform, Registry.register, Registration.callable?]
    | module generation m =>
      have hslots : (r.perform (.module generation m)).2.slots = r.slots := by
        unfold perform
        dsimp only
        split
        · rfl
        · next r' hr =>
          obtain ⟨-, rfl⟩ := registerModule_eq_ok_iff.mp hr
          rfl
      rw [hslots]
      rfl

/-- A module is turned away if and only if its name is taken. -/
theorem Indexed.registerModule_eq_error_iff (h : r.Indexed) {e : EvalError} :
    r.registerModule generation m = .error e ↔
      e = .duplicateModule m.name ∧ m.name ∈ r.modules.toList.map Module.name := by
  rw [← not_not (a := m.name ∈ _), ← h.moduleId?_eq_none_iff]
  unfold Registry.registerModule
  cases r.moduleId? m.name with
  | none => simp
  | some id => simp [eq_comm]

/-! ### What was handed out before -/

theorem Keeps.refl (r : Registry) : r.Keeps r := ⟨fun _ _ => id, fun _ _ => id, fun _ _ => id⟩

theorem Keeps.trans (h : r.Keeps r') (h' : r'.Keeps r'') : r.Keeps r'' where
  slots slot c hc := h'.slots slot c (h.slots slot c hc)
  modules id m hm := h'.modules id m (h.modules id m hm)
  moduleIds name id hid := h'.moduleIds name id (h.moduleIds name id hid)

theorem keeps_perform (r : Registry) (reg : Registration) : r.Keeps (r.perform reg).2 := by
  cases reg with
  | callable generation c =>
    exact ⟨fun _ _ hd => getElem?_push_of_some hd c, fun _ _ => id, fun _ _ => id⟩
  | module generation m =>
    unfold perform
    dsimp only
    split
    · exact .refl r
    · next r' hr =>
      have hids := moduleId?_registerModule hr
      obtain ⟨hfree, rfl⟩ := registerModule_eq_ok_iff.mp hr
      refine ⟨fun _ _ => id, fun _ _ hd => getElem?_push_of_some hd m, fun name id hid => ?_⟩
      have hne : name ≠ m.name := by
        rintro rfl
        rw [hfree] at hid
        cases hid
      rw [hids, if_neg hne, hid]

theorem keeps_after (r : Registry) (regs : List Registration) : r.Keeps (r.after regs) := by
  induction regs generalizing r with
  | nil => exact .refl r
  | cons reg regs ih => exact (r.keeps_perform reg).trans (ih _)

theorem implements_after (generation : Nat) (regs : List Registration) :
    (({ generation } : Registry).after regs).Implements
      (regs.filterMap Registration.callable?) := by
  have hindexed := (indexed_empty generation).after regs
  have hslots : (({ generation } : Registry).after regs).slots.toList =
      regs.filterMap Registration.callable? := slots_after _ regs
  exact ⟨hslots, hslots ▸ hindexed.finds_resolve?, hindexed, keeps_after _,
    fun _ _ _ => hindexed.registerModule_eq_error_iff⟩

/-- The registry came about by registrations. -/
def Built (r : Registry) : Prop := ∃ generation regs, r = ({ generation } : Registry).after regs

theorem Built.perform (h : r.Built) (reg : Registration) : (r.perform reg).2.Built := by
  obtain ⟨generation, regs, rfl⟩ := h
  exact ⟨generation, regs ++ [reg], by rw [after, after, List.foldl_append]; rfl⟩

end Registry

/-! ## Registries of interpreters -/

namespace Workspace

variable {ws ws' : Workspace}

theorem built_registry (h : ∀ e ∈ ws.registries, e.2.Built) (i : Interpreter) :
    (ws.registry i).Built := by
  unfold registry
  cases hlookup : ws.registries.lookup i.registry with
  | none => exact ⟨0, [], rfl⟩
  | some r => exact h _ (mem_of_lookup hlookup)

/-- Registries change by registrations only. -/
theorem History.built (h : History ws) : ∀ e ∈ ws.registries, e.2.Built := by
  induction h with
  | empty => nofun
  | @addInterpreter ws _ name session config ih =>
    intro e he
    rcases List.mem_cons.mp (List.mem_filter.mp he).1 with rfl | he
    · exact ⟨ws.fresh, [], rfl⟩
    · exact ih e he
  | cloneInterpreter _ i name ih | dropInterpreter _ name ih =>
    exact fun e he => ih e (List.mem_filter.mp he).1
  | @register ws _ i c ih =>
    unfold Workspace.register
    split
    · exact ih
    · intro e he
      rcases mem_setRegistry he with hold | hnew
      · exact ih e hold
      · exact hnew ▸ (built_registry ih i).perform (.callable ws.fresh c)
  | @registerModule ws _ i m ih =>
    unfold Workspace.registerModule
    split
    · exact ih
    · split
      · exact ih
      · next r hr =>
        intro e he
        rcases mem_setRegistry he with hold | hnew
        · exact ih e hold
        · have hbuilt := (built_registry ih i).perform (.module ws.fresh m)
          rw [Registry.perform, hr] at hbuilt
          exact hnew ▸ hbuilt
  | resolve _ i henv hm hr ih => exact ih
  | resolveModuleCall _ i henv hm hr ih => exact ih
  | other _ hr hf hc _ ih => exact hr ▸ ih

/-- A module that is turned away leaves the workspace as it was. -/
theorem registerModule_error {i : Interpreter} {m : Module} {e : EvalError}
    (h : ws.registerModule i m = (.error e, ws')) : ws' = ws := by
  unfold registerModule at h
  split at h
  · cases h; rfl
  · split at h
    · cases h; rfl
    · cases h

end Workspace

/-- After any registrations a registry finds the latest callable, and its tables are in order. The
    registries of a workspace that comes about are such, and a module that is turned away leaves the
    workspace as it was. After any additions a module finds the earliest callable, and one made from
    the functions of a program finds what the program finds. -/
theorem registrations_exact (generation : Nat) (regs : List Registration) :
    (({ generation } : Registry).after regs).Implements (regs.filterMap Registration.callable?) ∧
      (∀ ws, Workspace.History ws → ∀ i, (ws.registry i).Built) ∧
      (∀ ws ws' i m e, Workspace.registerModule ws i m = (.error e, ws') → ws' = ws) ∧
      (∀ (module : String) (adds : List Addition),
        Callable.Finds (· ≥ ·) (adds.flatMap Addition.callables)
          (adds.foldl Module.extend { name := module }).resolve?) ∧
      ∀ (module : String) (p : Linked Block) (name : String) (count : Nat),
        let m := ({ name := module } : Module).addProgram p
        (m.resolve? name count).bind (m.functions[·]?) =
          (findFunction? p.node.functions name count).map fun f => .script ⟨p.program, f⟩ := by
  refine ⟨Registry.implements_after generation regs,
    fun ws hws i => Workspace.built_registry hws.built i,
    fun ws ws' i m e h => Workspace.registerModule_error h, ?_, Module.resolve?_addProgram⟩
  intro module adds
  have hfinds := (adds.foldl Module.extend { name := module }).finds_resolve?
  rwa [Module.functions_foldl_extend] at hfinds

/-- Two functions `f` that take any number of arguments, one that takes a single one in between, and
    a module. -/
def overloads : List Registration :=
  let f (arity : Arity) := Callable.native "f" arity fun _ => .done
  [.callable 2 (f .any), .callable 3 (f (.exact 1)), .callable 4 (f .any),
   .module 5 { name := "m" }]

/-- A workspace with an interpreter that has a module. -/
def withModule : Workspace :=
  ((({} : Workspace).addInterpreter "main" 1 {}).registerModule ⟨1, {}, 1, 1⟩ { name := "m" }).2

/-- A single argument goes to the second function and two arguments to the third. Another module
    with the same name is turned away, and in a workspace that changes nothing. -/
theorem registrations_exact_overloads :
    let r := ({ generation := 1 } : Registry).after overloads
    let cs := overloads.filterMap Registration.callable?
    r.resolve? "f" 1 = some 1 ∧ Callable.Selected (· ≤ ·) cs "f" 1 1 ∧
      r.resolve? "f" 2 = some 2 ∧ Callable.Selected (· ≤ ·) cs "f" 2 2 ∧
      r.registerModule 6 { name := "m" } = .error (.duplicateModule "m") ∧
      (withModule.registry ⟨1, {}, 1, 1⟩).Built ∧
      withModule.registerModule ⟨1, {}, 1, 1⟩ { name := "m" } =
        (.error (.duplicateModule "m"), withModule) := by
  obtain ⟨himplements, hbuilt, hunchanged, -⟩ := registrations_exact 1 overloads
  have hone : (({ generation := 1 } : Registry).after overloads).resolve? "f" 1 = some 1 := by rfl
  have htwo : (({ generation := 1 } : Registry).after overloads).resolve? "f" 2 = some 2 := by rfl
  have hhistory : Workspace.History withModule :=
    (Workspace.History.empty.addInterpreter "main" 1 {}).registerModule _ _
  have herror : (withModule.registerModule ⟨1, {}, 1, 1⟩ { name := "m" }).1 =
      .error (.duplicateModule "m") := by rfl
  exact ⟨hone, (himplements.finds.found _ _ _).mp hone, htwo,
    (himplements.finds.found _ _ _).mp htwo,
    (himplements.refuses _ _ _).mpr ⟨rfl, List.mem_singleton.mpr rfl⟩, hbuilt _ hhistory _,
    Prod.ext herror (hunchanged _ _ _ _ _ (Prod.ext herror rfl))⟩

end TierScript
