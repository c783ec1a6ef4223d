import Mathlib.Data.List.Forall2
import TierScript.Proofs.Json.Trees
import TierScript.Run.Config
import TierScript.Source.Json
import TierScript.Value.Json

/-!
# What is written as JSON reads back

Diagnostics, configurations and values each have their own writer and their own reader. A diagnostic
is one flat object, without a suggestion if it has none; a configuration is an object spread over
lines; a value is written without its kind, so that only the form of the text tells an integer from
a string of digits.

* `Value.returns`, `Diagnostic.ofJson?_json`, `Config.ofJson?_json`: each of the three on its own.
* `json_reads_back`: the three together.
-/

namespace TierScript

namespace Json

/-! ## Members of objects -/

/-- The tree of a text. -/
def Raw.ofString (s : String) : Raw := .string (s.toList.map piece)

/-- The tree of a natural number. -/
def Raw.ofNat (n : Nat) : Raw := .number (numeral n)

/-- The tree of an object. -/
def Raw.ofMembers (members : List (String × Raw)) : Raw :=
  .object (members.map fun m => (m.1.toList.map piece, m.2))

theorem denotes_ofString (s : String) : Denotes (writeString s.toList) (.ofString s) :=
  .string _

theorem denotes_ofNat (n : Nat) : Denotes (writeNat n) (.ofNat n) := .number n

@[simp] theorem text?_ofString (s : String) : (Raw.ofString s).text? = some s.toList :=
  decodePieces?_map _

theorem decode?_ofNat {n : Nat} (hn : n ≤ maxNatural) :
    (numeral n).decode? = some (.natural n) := by
  rw [decode?_numeral n (by omega) (by omega), if_neg (by omega), Int.natAbs_natCast]

theorem nat?_ofNat {n bound : Nat} (hn : n ≤ bound) (hbound : bound ≤ maxNatural) :
    (Raw.ofNat n).nat? bound = some n := by
  simp only [Raw.ofNat, Raw.nat?, decode?_ofNat (Nat.le_trans hn hbound), hn, if_true]

theorem isSound_ofString (depth : Nat) (s : String) : (Raw.ofString s).isSound depth = true := by
  simp only [Raw.ofString, Raw.isSound, decodePieces?_map, Option.isSome_some]

theorem isSound_ofNat (depth : Nat) {n : Nat} (hn : n ≤ maxNatural) :
    (Raw.ofNat n).isSound depth = true := by
  simp only [Raw.ofNat, Raw.isSound, decode?_ofNat hn, Option.isSome_some]

/-- The members of an object under their names as texts. -/
def named (members : List (String × Raw)) : List (List Char × Raw) :=
  members.map fun m => (m.1.toList, m.2)

theorem members?_ofMembers (members : List (String × Raw)) :
    (Raw.ofMembers members).members? = some (named members) := by
  show Raw.members?.go _ = _
  induction members with
  | nil => rfl
  | cons m ms ih =>
    rw [List.map_cons, Raw.members?.go, decodePieces?_map, ih]
    rfl

theorem filter_named (members : List (String × Raw)) (name : String) :
    (named members).filter (fun m => m.1 == name.toList) =
      named (members.filter fun m => m.1 == name) := by
  have hsame : ∀ m : String × Raw, (m.1.toList == name.toList) = (m.1 == name) := by
    intro m
    simp only [Bool.beq_eq_decide_eq, String.toList_inj]
  simp only [named, List.filter_map, Function.comp_def, hsame]

theorem only?_of_mem {members : List (String × Raw)} {name : String} {r : Raw}
    (hnames : (members.map Prod.fst).Nodup) (hr : (name, r) ∈ members) :
    only? (named members) name = some (some r) := by
  have honly : members.filter (fun m => m.1 == name) = [(name, r)] := by
    induction members with
    | nil => exact absurd hr List.not_mem_nil
    | cons m ms ih =>
      obtain ⟨hnew, hdistinct⟩ := List.nodup_cons.mp hnames
      obtain rfl | htail := List.mem_cons.mp hr
      · have hrest : ms.filter (fun m => m.1 == name) = [] := by
          rw [List.filter_eq_nil_iff]
          intro m hm heq
          exact hnew (List.mem_map.mpr ⟨m, hm, by simpa using heq⟩)
        rw [List.filter_cons_of_pos (by simp), hrest]
      · have hother : ¬(m.1 == name) = true := by
          intro heq
          exact hnew (List.mem_map.mpr ⟨_, htail, (beq_iff_eq.mp heq).symm⟩)
        rw [List.filter_cons, if_neg hother, ih hdistinct htail]
  rw [only?, filter_named, honly]
  rfl

theorem only?_of_not_mem {members : List (String × Raw)} {name : String}
    (hname : name ∉ members.map Prod.fst) : only? (named members) name = some none := by
  have hnone : members.filter (fun m => m.1 == name) = [] := by
    rw [List.filter_eq_nil_iff]
    intro m hm heq
    exact hname (List.mem_map.mpr ⟨m, hm, by simpa using heq⟩)
  rw [only?, filter_named, hnone]
  rfl

end Json

/-! ## Values -/

namespace Value

mutual

/-- How deep arrays are nested in a value. -/
def depth : Value → Nat
  | array items => itemsDepth items + 1
  | _ => 0

/-- How deep arrays are nested in any of the values. -/
def itemsDepth : List Value → Nat
  | [] => 0
  | v :: vs => max (depth v) (itemsDepth vs)

end

mutual

/-- Whether no double is part of the value. -/
def isFloatFree : Value → Bool
  | float _ => false
  | array items => areFloatFree items
  | _ => true

/-- Whether no double is part of any of the values. -/
def areFloatFree : List Value → Bool
  | [] => true
  | v :: vs => isFloatFree v && areFloatFree vs

end

theorem ofRaw?_numeral (n : Int64) (deep : Nat) :
    ofRaw? deep (.number (Json.numeral n.toInt)) = some (int n) := by
  have hleast : -2 ^ 63 ≤ n.toInt := n.le_toInt
  have hmost : n.toInt < 2 ^ 63 := n.toInt_lt
  have hdecode := Json.decode?_numeral n.toInt hleast (by simp only [Json.maxNatural]; omega)
  rw [ofRaw?, hdecode, Option.map_some]
  by_cases hn : n.toInt < 0
  · rw [if_pos hn, ofQuantity, Int64.ofInt_toInt]
  · have hsmall : n.toInt.natAbs < 2 ^ 63 := by omega
    have hcast : ((n.toInt.natAbs : Nat) : Int) = n.toInt := by omega
    rw [if_neg hn, ofQuantity, if_pos hsmall, ← Int64.ofInt_eq_ofNat, hcast, Int64.ofInt_toInt]

/-- The text of the value denotes a tree, and readers that go deep enough give the value for it. -/
def Returns (v : Value) : Prop :=
  ∃ r, Json.Denotes v.json r ∧ ∀ deep, v.depth ≤ deep → ofRaw? deep r = some v

mutual

theorem returns : ∀ v : Value, v.isFloatFree = true → Returns v
  | null, _ => ⟨.null, .null, fun _ _ => by simp only [ofRaw?]⟩
  | bool b, _ => ⟨.bool b, .bool b, fun _ _ => by simp only [ofRaw?]⟩
  | int n, _ => ⟨_, .number n.toInt, fun deep _ => ofRaw?_numeral n deep⟩
  | float x, hfree => by simp [isFloatFree] at hfree
  | str s, _ => by
    refine ⟨_, Json.denotes_ofString s, fun deep _ => ?_⟩
    simp only [Json.Raw.ofString, ofRaw?, Json.decodePieces?_map, Option.map_some,
      String.ofList_toList]
  | array items, hfree => by
    rw [isFloatFree] at hfree
    have hitems : ∃ rs, Json.Denotes (array items).json (.array rs) ∧
        ∀ deep, itemsDepth items ≤ deep → ofRaws? deep rs = some items := by
      by_cases hne : items = []
      · subst hne
        exact ⟨[], .empty, fun _ _ => by simp only [ofRaws?]⟩
      · obtain ⟨rs, hlists, hread⟩ := itemsReturn items hne hfree
        refine ⟨rs, ?_, hread⟩
        rw [json]
        exact .array hlists
    obtain ⟨rs, hdenotes, hread⟩ := hitems
    refine ⟨.array rs, hdenotes, fun deep hdeep => ?_⟩
    rw [depth] at hdeep
    cases deep with
    | zero => omega
    | succ deep => rw [ofRaw?, hread deep (by omega), Option.map_some]

theorem itemsReturn : ∀ vs : List Value, vs ≠ [] → areFloatFree vs = true →
    ∃ rs, Json.Lists (itemsJson vs ++ [']']) rs ∧
      ∀ deep, itemsDepth vs ≤ deep → ofRaws? deep rs = some vs
  | [], hne, _ => absurd rfl hne
  | [v], _, hfree => by
    rw [areFloatFree, Bool.and_eq_true] at hfree
    obtain ⟨r, hdenotes, hread⟩ := returns v hfree.1
    refine ⟨[r], ?_, fun deep hdeep => ?_⟩
    · rw [itemsJson]
      exact .single hdenotes
    · rw [itemsDepth] at hdeep
      simp only [ofRaws?, hread deep (by omega)]
  | v :: w :: vs, _, hfree => by
    rw [areFloatFree, Bool.and_eq_true] at hfree
    obtain ⟨r, hdenotes, hread⟩ := returns v hfree.1
    obtain ⟨rs, hlists, hreads⟩ := itemsReturn (w :: vs) nofun hfree.2
    refine ⟨r :: rs, ?_, fun deep hdeep => ?_⟩
    · rw [itemsJson, List.append_assoc, List.append_assoc, List.singleton_append]
      exact .cons hdenotes hlists
    · rw [itemsDepth] at hdeep
      simp only [ofRaws?, hread deep (by omega), hreads deep (by omega)]

end

theorem ofJson?_json {v : Value} (hfree : v.isFloatFree = true) (hdepth : v.depth ≤ Json.maxDepth) :
    ofJson? v.json = some v := by
  obtain ⟨r, hdenotes, hread⟩ := returns v hfree
  rw [ofJson?, hdenotes.read?, Option.bind_some, hread _ hdepth]

end Value

/-! ## Diagnostics -/

namespace Diagnostic

/-- The members that a diagnostic is read as. -/
def rawMembers (d : Diagnostic) : List (String × Json.Raw) :=
  [("file", .ofString d.file), ("code", .ofNat d.code.value.toNat),
   ("category", .ofString d.category.render), ("message", .ofString d.message),
   ("line", .ofNat d.span.start.line), ("column", .ofNat d.span.start.col),
   ("end_line", .ofNat d.span.stop.line), ("end_column", .ofNat d.span.stop.col),
   ("source_line", .ofString d.sourceLine)] ++
  match d.suggestion with
  | some s => [("suggestion", .ofString s)]
  | none => []

/-- A written member and the member that is read. -/
def Reads (m : String × List Char) (r : String × Json.Raw) : Prop :=
  m.1 = r.1 ∧ Json.Denotes m.2 r.2

theorem forall₂_members (d : Diagnostic) : List.Forall₂ Reads d.members d.rawMembers := by
  have htext (name s : String) : Reads (name, Json.writeString s.toList) (name, .ofString s) :=
    ⟨rfl, Json.denotes_ofString s⟩
  have hnat (name : String) (n : Nat) : Reads (name, Json.writeNat n) (name, .ofNat n) :=
    ⟨rfl, Json.denotes_ofNat n⟩
  rw [members, rawMembers]
  refine List.rel_append ?_ ?_
  · exact .cons (htext _ _) <| .cons (hnat _ _) <| .cons (htext _ _) <| .cons (htext _ _) <|
      .cons (hnat _ _) <| .cons (hnat _ _) <| .cons (hnat _ _) <| .cons (hnat _ _) <|
      .cons (htext _ _) .nil
  · cases d.suggestion with
    | none => exact .nil
    | some s => exact .cons (htext _ s) .nil

theorem pairs_writeMembers {ms : List (String × List Char)} {rs : List (String × Json.Raw)}
    (h : List.Forall₂ Reads ms rs) (hne : ms ≠ []) :
    Json.Pairs (writeMembers ms ++ ['\x7d'])
      (rs.map fun r => (r.1.toList.map Json.piece, r.2)) := by
  induction h with
  | nil => exact absurd rfl hne
  | @cons m r ms rs hm hms ih =>
    obtain ⟨key, value⟩ := m
    obtain ⟨name, tree⟩ := r
    obtain ⟨rfl, hdenotes⟩ := hm
    cases hms with
    | nil =>
      have hsingle := Json.Pairs.single key.toList hdenotes (List.forall_mem_nil _)
      simpa only [writeMembers, List.append_assoc, List.cons_append, List.nil_append, List.map_cons,
        List.map_nil] using hsingle
    | cons hm hms =>
      have hcons := Json.Pairs.cons key.toList hdenotes (ih nofun)
      simpa only [writeMembers, List.append_assoc, List.cons_append, List.map_cons] using hcons

theorem read?_json (d : Diagnostic) : Json.Raw.read? d.json = some (.ofMembers d.rawMembers) := by
  have hpairs := pairs_writeMembers d.forall₂_members nofun
  exact Json.Denotes.read? (.object hpairs)

theorem nodup_rawMembers (d : Diagnostic) : (d.rawMembers.map Prod.fst).Nodup := by
  rw [rawMembers]
  cases d.suggestion with
  | none =>
    show ["file", "code", "category", "message", "line", "column", "end_line", "end_column",
      "source_line"].Nodup
    decide
  | some s =>
    show ["file", "code", "category", "message", "line", "column", "end_line", "end_column",
      "source_line", "suggestion"].Nodup
    decide

/-- The positions fit in 32 bits. -/
def IsNarrow (d : Diagnostic) : Prop :=
  d.span.start.line < 2 ^ 32 ∧ d.span.start.col < 2 ^ 32 ∧
    d.span.stop.line < 2 ^ 32 ∧ d.span.stop.col < 2 ^ 32

instance (d : Diagnostic) : Decidable d.IsNarrow := inferInstanceAs (Decidable (_ ∧ _ ∧ _ ∧ _))

theorem isSound_of_mem {d : Diagnostic} (h : d.IsNarrow) {m : String × Json.Raw}
    (hm : m ∈ d.rawMembers) (depth : Nat) : m.2.isSound depth = true := by
  obtain ⟨hline, hcol, hendLine, hendCol⟩ := h
  have hcode := d.code.value.toNat_lt
  have hlarge : 2 ^ 32 ≤ Json.maxNatural := by decide
  rw [rawMembers, List.mem_append] at hm
  obtain hm | hm := hm
  · simp only [List.mem_cons, List.not_mem_nil, or_false] at hm
    rcases hm with rfl | rfl | rfl | rfl | rfl | rfl | rfl | rfl | rfl <;>
      first
      | exact Json.isSound_ofString _ _
      | exact Json.isSound_ofNat _ (by omega)
  · cases hsuggestion : d.suggestion with
    | none => simp [hsuggestion] at hm
    | some s =>
      obtain rfl : m = ("suggestion", .ofString s) := by simpa [hsuggestion] using hm
      exact Json.isSound_ofString _ _

theorem required?_of_mem {d : Diagnostic} {name : String} {r : Json.Raw}
    (hr : (name, r) ∈ d.rawMembers) : required? (Json.named d.rawMembers) name = some r := by
  rw [required?, Json.only?_of_mem d.nodup_rawMembers hr]
  rfl

theorem text?_of_mem {d : Diagnostic} {name s : String}
    (hr : (name, Json.Raw.ofString s) ∈ d.rawMembers) :
    text? (Json.named d.rawMembers) name = some s := by
  rw [text?, required?_of_mem hr, Option.bind_some, Json.text?_ofString, Option.map_some,
    String.ofList_toList]

theorem position?_of_mem {d : Diagnostic} {name : String} {n : Nat} (hn : n < 2 ^ 32)
    (hr : (name, Json.Raw.ofNat n) ∈ d.rawMembers) :
    position? (Json.named d.rawMembers) name = some n := by
  rw [position?, required?_of_mem hr, Option.bind_some, Json.nat?_ofNat (by omega) (by decide)]

theorem category?_ofString (c : Category) : category? (.ofString c.render) = some c := by
  show (Json.decodePieces? (c.render.toList.map Json.piece)).bind _ = _
  rw [Json.decodePieces?_map, Option.bind_some, String.ofList_toList, Category.ofName?_render]

theorem suggestion?_only? (d : Diagnostic) :
    ∃ found, Json.only? (Json.named d.rawMembers) "suggestion" = some found ∧
      suggestion? found = some d.suggestion := by
  cases hsuggestion : d.suggestion with
  | none =>
    have hmissing : "suggestion" ∉ d.rawMembers.map Prod.fst := by
      simp [rawMembers, hsuggestion]
    exact ⟨none, Json.only?_of_not_mem hmissing, rfl⟩
  | some s =>
    have hmem : ("suggestion", Json.Raw.ofString s) ∈ d.rawMembers := by
      simp [rawMembers, hsuggestion]
    refine ⟨_, Json.only?_of_mem d.nodup_rawMembers hmem, ?_⟩
    show ((Json.Raw.ofString s).text?).map _ = _
    rw [Json.text?_ofString, Option.map_some, String.ofList_toList]

theorem ofRaw?_ofMembers {d : Diagnostic} (h : d.IsNarrow) :
    ofRaw? (.ofMembers d.rawMembers) = some d := by
  have hothers : ((Json.named d.rawMembers).filter fun m =>
      !directNames.contains (String.ofList m.1)).all
        (fun m => m.2.isSound (Json.maxDepth - 1)) = true := by
    rw [List.all_eq_true]
    intro m hm
    obtain ⟨r, hr, rfl⟩ := List.mem_map.mp (List.mem_of_mem_filter hm)
    exact isSound_of_mem h hr _
  obtain ⟨hline, hcol, hendLine, hendCol⟩ := h
  have hfile : text? (Json.named d.rawMembers) "file" = some d.file :=
    text?_of_mem (by simp [rawMembers])
  have hmessage : text? (Json.named d.rawMembers) "message" = some d.message :=
    text?_of_mem (by simp [rawMembers])
  have hsourceLine : text? (Json.named d.rawMembers) "source_line" = some d.sourceLine :=
    text?_of_mem (by simp [rawMembers])
  have hlineRead : position? (Json.named d.rawMembers) "line" = some d.span.start.line :=
    position?_of_mem hline (by simp [rawMembers])
  have hcolRead : position? (Json.named d.rawMembers) "column" = some d.span.start.col :=
    position?_of_mem hcol (by simp [rawMembers])
  have hendLineRead : position? (Json.named d.rawMembers) "end_line" = some d.span.stop.line :=
    position?_of_mem hendLine (by simp [rawMembers])
  have hendColRead : position? (Json.named d.rawMembers) "end_column" = some d.span.stop.col :=
    position?_of_mem hendCol (by simp [rawMembers])
  have hcode : required? (Json.named d.rawMembers) "code" = some (.ofNat d.code.value.toNat) :=
    required?_of_mem (by simp [rawMembers])
  have hcategory : required? (Json.named d.rawMembers) "category" =
      some (.ofString d.category.render) := required?_of_mem (by simp [rawMembers])
  have hlargest : d.code.value.toNat ≤ 2 ^ 16 - 1 := Nat.le_pred_of_lt d.code.value.toNat_lt
  have hnat := Json.nat?_ofNat hlargest (by decide)
  have hunit : d.code.value.toNat.toUInt16 = d.code.value := UInt16.ofNat_toNat
  obtain ⟨found, hfound, hsuggestion⟩ := d.suggestion?_only?
  refine Option.bind_eq_some_iff.mpr ⟨_, Json.members?_ofMembers _, (if_pos hothers).trans ?_⟩
  refine Option.bind_eq_some_iff.mpr ⟨_, hfile, ?_⟩
  refine Option.bind_eq_some_iff.mpr ⟨_, hcode, Option.bind_eq_some_iff.mpr ⟨_, hnat, ?_⟩⟩
  refine Option.bind_eq_some_iff.mpr ⟨_, hcategory, ?_⟩
  refine Option.bind_eq_some_iff.mpr ⟨_, category?_ofString d.category, ?_⟩
  refine Option.bind_eq_some_iff.mpr ⟨_, hmessage, ?_⟩
  refine Option.bind_eq_some_iff.mpr ⟨_, hlineRead, Option.bind_eq_some_iff.mpr ⟨_, hcolRead, ?_⟩⟩
  refine Option.bind_eq_some_iff.mpr ⟨_, hendLineRead, ?_⟩
  refine Option.bind_eq_some_iff.mpr ⟨_, hendColRead, ?_⟩
  refine Option.bind_eq_some_iff.mpr ⟨_, hsourceLine, ?_⟩
  refine Option.bind_eq_some_iff.mpr ⟨_, hfound, Option.bind_eq_some_iff.mpr ⟨_, hsuggestion, ?_⟩⟩
  rw [hunit]
  rfl

theorem ofJson?_json {d : Diagnostic} (h : d.IsNarrow) : ofJson? d.json = some d := by
  rw [ofJson?, read?_json, Option.bind_some, ofRaw?_ofMembers h]

end Diagnostic

/-! ## Configurations -/

namespace Config

/-- The members that a configuration is read as. -/
def rawMembers (c : Config) : List (String × Json.Raw) :=
  [("max_call_depth", .ofNat c.maxCallDepth), ("context_pool_capacity", .ofNat c.poolCapacity),
   ("file_name", .ofString c.fileName)]

theorem read?_json (c : Config) : Json.Raw.read? c.json = some (.ofMembers c.rawMembers) := by
  have hindent : ∀ x ∈ ['\n', ' ', ' '], Json.isSpace x = true := by simp [Json.isSpace]
  have hgap : ∀ x ∈ [' '], Json.isSpace x = true := by simp [Json.isSpace]
  have hend : ∀ x ∈ ['\n'], Json.isSpace x = true := by simp [Json.isSpace]
  have hname := (Json.Pairs.single "file_name".toList
    ((Json.denotes_ofString c.fileName).space hgap) hend).space hindent
  have hcapacity := (Json.Pairs.cons "context_pool_capacity".toList
    ((Json.denotes_ofNat c.poolCapacity).space hgap) hname).space hindent
  have hdepth := (Json.Pairs.cons "max_call_depth".toList
    ((Json.denotes_ofNat c.maxCallDepth).space hgap) hcapacity).space hindent
  -- The members as they stand between the literals of the writer.
  have hfirst (cs : List Char) : "\x7b\n  \"max_call_depth\": ".toList ++ cs =
      '\x7b' :: '\n' :: ' ' :: ' ' ::
        (Json.writeString "max_call_depth".toList ++ ':' :: ' ' :: cs) := rfl
  have hsecond (cs : List Char) : ",\n  \"context_pool_capacity\": ".toList ++ cs =
      ',' :: '\n' :: ' ' :: ' ' ::
        (Json.writeString "context_pool_capacity".toList ++ ':' :: ' ' :: cs) := rfl
  have hthird (cs : List Char) : ",\n  \"file_name\": ".toList ++ cs =
      ',' :: '\n' :: ' ' :: ' ' :: (Json.writeString "file_name".toList ++ ':' :: ' ' :: cs) := rfl
  have hlast : "\n\x7d".toList = ['\n', '\x7d'] := rfl
  have hassoc (t₁ t₂ t₃ t₄ t₅ t₆ t₇ : List Char) : t₁ ++ t₂ ++ t₃ ++ t₄ ++ t₅ ++ t₆ ++ t₇ =
      t₁ ++ (t₂ ++ (t₃ ++ (t₄ ++ (t₅ ++ (t₆ ++ t₇))))) := by
    simp only [List.append_assoc]
  unfold json
  rw [hassoc, hfirst, hsecond, hthird, hlast]
  exact Json.Denotes.read? (.object hdepth)

theorem ofJson?_json {c : Config} (hdepth : c.maxCallDepth < 2 ^ 64)
    (hcapacity : c.poolCapacity < 2 ^ 64) : ofJson? c.json = some c := by
  have hnames : (c.rawMembers.map Prod.fst).Nodup := by
    show ["max_call_depth", "context_pool_capacity", "file_name"].Nodup
    decide
  have hbound : Json.maxNatural = 2 ^ 64 - 1 := rfl
  have hdepthRead : Json.only? (Json.named c.rawMembers) "max_call_depth" =
      some (some (.ofNat c.maxCallDepth)) := Json.only?_of_mem hnames (by simp [rawMembers])
  have hcapacityRead : Json.only? (Json.named c.rawMembers) "context_pool_capacity" =
      some (some (.ofNat c.poolCapacity)) := Json.only?_of_mem hnames (by simp [rawMembers])
  have hnameRead : Json.only? (Json.named c.rawMembers) "file_name" =
      some (some (.ofString c.fileName)) := Json.only?_of_mem hnames (by simp [rawMembers])
  have hmembers := Json.members?_ofMembers c.rawMembers
  rw [ofJson?, read?_json, Option.bind_some]
  simp only [Json.Raw.ofMembers] at hmembers ⊢
  simp only [ofRaw?, hmembers, Option.bind_eq_bind, Option.bind_some, hdepthRead, hcapacityRead,
    hnameRead, ofMembers?, orDefault, size?, name?, Json.text?_ofString, Option.map_some,
    String.ofList_toList]
  rw [Json.nat?_ofNat (by omega) (by omega), Json.nat?_ofNat (by omega) (by omega)]
  rfl

end Config

/-- The JSON text of a diagnostic, of a configuration or of a value describes just that one: every
    diagnostic whose positions fit in 32 bits, every configuration whose sizes fit in 64 bits, and
    every value without doubles that is not nested deeper than a reader of JSON goes, which is 127
    arrays. The value is the same one, so an integer is still an integer and a string of digits is
    still a string. -/
theorem json_reads_back :
    (∀ d : Diagnostic, d.IsNarrow → Diagnostic.ofJson? d.json = some d) ∧
    (∀ c : Config, c.maxCallDepth < 2 ^ 64 → c.poolCapacity < 2 ^ 64 →
      Config.ofJson? c.json = some c) ∧
    (∀ v : Value, v.isFloatFree = true → v.depth ≤ Json.maxDepth →
      Value.ofJson? v.json = some v) :=
  ⟨fun _ h => Diagnostic.ofJson?_json h,
    fun _ hdepth hcapacity => Config.ofJson?_json hdepth hcapacity,
    fun _ hfree hdepth => Value.ofJson?_json hfree hdepth⟩

/-- Every control and what else is escaped, and a character beyond 16 bits. -/
def awkward : String :=
  String.ofList ((List.range 32).map Char.ofNat ++ ['\x22', '\x5c', '/', '\x7f', '😀'])

/-- The awkward text everywhere, the largest code, positions and sizes, the least integer, and
    strings that look like other values. The category is not the one of the code. -/
theorem json_reads_back_awkward :
    let d : Diagnostic :=
      { file := awkward, code := ⟨65535⟩, category := .lexical, message := awkward,
        span := ⟨⟨2 ^ 32 - 1, 0⟩, ⟨0, 2 ^ 32 - 1⟩⟩, sourceLine := "", suggestion := some awkward }
    let c : Config := ⟨2 ^ 64 - 1, 0, awkward⟩
    let v : Value :=
      .array [.int Int64.minValue, .str "12", .int 12, .array [.array [], .str awkward],
        .str "null", .null, .bool false]
    Diagnostic.ofJson? d.json = some d ∧ Config.ofJson? c.json = some c ∧
      Value.ofJson? v.json = some v := by
  intro d c v
  have hnarrow : d.IsNarrow := by decide
  have hdepth : c.maxCallDepth < 2 ^ 64 := by decide
  have hcapacity : c.poolCapacity < 2 ^ 64 := by decide
  have hfree : v.isFloatFree = true := by decide
  have hnested : v.depth ≤ Json.maxDepth := by decide
  exact ⟨json_reads_back.1 d hnarrow, json_reads_back.2.1 c hdepth hcapacity,
    json_reads_back.2.2 v hfree hnested⟩

end TierScript
