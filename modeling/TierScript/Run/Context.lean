import TierScript.Program.Basic
import TierScript.Run.Stores

/-!
# Contexts

The state of one evaluation: its own variables, the session it belongs to, and what it keeps track
of while it runs. That is a mark for every loop it is in, the functions of the blocks it is in, and
for every running block the block that follows the current statement and may be attached to it.
All of these are kept innermost first.
-/

namespace TierScript

/-- The number of a parsed program. Equal texts that are parsed twice make two programs. -/
abbrev ProgramId := Nat

/-- A part of a program together with the program it belongs to. -/
structure Linked (α : Type) where
  program : ProgramId
  node : α

instance {α : Type} [Inhabited α] : Inhabited (Linked α) := ⟨⟨0, default⟩⟩

/-- The block after the running statement, and whether the statement has claimed it
    (`BlockOffer`). -/
structure Offer where
  block : Option (Linked Block) := none
  claimed : Bool := false
  deriving Inhabited

/-- The state of one evaluation. -/
structure Context where
  session : SessionId
  /-- The session variables that the context uses. -/
  store : StoreId
  locals : Vars := {}
  /-- For every loop around the current statement, whether it has been broken. -/
  loops : List Bool := []
  /-- The functions of the blocks around the current statement. -/
  lexical : List (Linked (List FnDef)) := []
  /-- One offer for every running block. -/
  offers : List Offer := []
  earlyExit : Bool := false
  /-- How many calls of script functions led to this context. -/
  depth : Nat := 0
  deriving Inhabited

namespace Context

/-- A new context of a session (`new`). -/
def create (stores : Stores) (session : SessionId) : Context × Stores :=
  let (store, stores) := stores.obtain session
  ({ session, store }, stores)

/-- A context with the same session and a copy of the variables, and nothing else (`derive`). -/
def derive (c : Context) : Context :=
  { session := c.session, store := c.store, locals := c.locals }

/-- A context with the same session and nothing else (`reset`). -/
def reset (c : Context) : Context :=
  { session := c.session, store := c.store }

/-- Moves a context to a session (`rebind`). A context that is in that session already keeps the
    variables it uses. -/
def rebind (c : Context) (stores : Stores) (session : SessionId) : Context × Stores :=
  if c.session = session then (c, stores)
  else
    let (store, stores) := stores.obtain session
    ({ c with session, store }, stores)

/-! ## Variables -/

/-- The value of a variable (`get_var`). -/
def read (c : Context) (stores : Stores) (v : Var) : Value :=
  match v.tier with
  | .loc => c.locals.get v.name
  | .session => (stores.table c.store).get v.name
  | .global => stores.global.get v.name

/-- Gives one of the context's own variables a value (`set_local`). -/
def setLocal (c : Context) (name : String) (value : Value) : Context :=
  { c with locals := c.locals.set name value }

/-- Gives a variable a value (`set_var`). -/
def write (c : Context) (stores : Stores) (v : Var) (value : Value) : Context × Stores :=
  match v.tier with
  | .loc => (c.setLocal v.name value, stores)
  | .session => (c, stores.update c.store fun vars => vars.set v.name value)
  | .global => (c, { stores with global := stores.global.set v.name value })

/-! ## Loops -/

/-- Enters a loop (`enter_loop`). -/
def enterLoop (c : Context) : Context := { c with loops := false :: c.loops }

/-- Leaves the innermost loop (`exit_loop`). -/
def exitLoop (c : Context) : Context := { c with loops := c.loops.tail }

/-- Whether the context is in a loop (`in_loop`). -/
def inLoop (c : Context) : Bool := !c.loops.isEmpty

/-- Breaks the innermost loop, and tells whether there was one (`break_loop`). -/
def breakLoop (c : Context) : Bool × Context :=
  match c.loops with
  | [] => (false, c)
  | _ :: outer => (true, { c with loops := true :: outer })

/-- Stops everything that is left to do on this context (`set_early_exit`). -/
def setExit (c : Context) : Context := { c with earlyExit := true }

/-- Lets a context that was stopped run again (`clear_early_exit`). -/
def clearExit (c : Context) : Context := { c with earlyExit := false }

/-- Whether no further statement is to be run: the context was stopped, or its innermost loop was
    broken (`is_terminated`). -/
def isTerminated (c : Context) : Bool := c.earlyExit || c.loops.head?.getD false

/-! ## Functions -/

/-- Enters a block with the given functions; a block without any leaves no trace
    (`push_lexical`). -/
def pushFunctions (c : Context) (program : ProgramId) (functions : List FnDef) : Context :=
  if functions.isEmpty then c else { c with lexical := ⟨program, functions⟩ :: c.lexical }

/-- Leaves a block with the given functions (`pop_lexical`). -/
def popFunctions (c : Context) (functions : List FnDef) : Context :=
  if functions.isEmpty then c else { c with lexical := c.lexical.tail }

/-- The function with the given name and number of parameters in the innermost block that has one
    (`find_function`). -/
def findFunction? (c : Context) (name : String) (arity : Nat) : Option (Linked FnDef) :=
  c.lexical.findSome? fun table =>
    (TierScript.findFunction? table.node name arity).map fun f => ⟨table.program, f⟩

/-! ## Attached blocks -/

/-- Starts keeping an offer for a block that begins to run (`push_offer_frame`). -/
def pushOffer (c : Context) : Context := { c with offers := {} :: c.offers }

/-- Stops keeping the offer of a block that has ended (`pop_offer_frame`). -/
def popOffer (c : Context) : Context := { c with offers := c.offers.tail }

/-- Offers a block, or none, to the statement that runs next (`offer_block`). -/
def offer (c : Context) (block : Option (Linked Block)) : Context :=
  match c.offers with
  | [] => c
  | _ :: outer => { c with offers := { block } :: outer }

/-- Whether the block on offer was claimed (`offer_claimed`). -/
def offerClaimed (c : Context) : Bool := (c.offers.head?.map Offer.claimed).getD false

/-- The block on offer, if it was not claimed yet (`attached_block`). -/
def attached? (c : Context) : Option (Linked Block) := c.offers.head?.bind Offer.block

/-- Claims the block on offer, so that it is not run as the next statement
    (`claim_attached_block`). -/
def claim (c : Context) : Option (Linked Block) × Context :=
  match c.offers with
  | [] => (none, c)
  | top :: outer =>
    match top.block with
    | none => (none, c)
    | some b => (some b, { c with offers := { block := none, claimed := true } :: outer })

end Context

end TierScript
