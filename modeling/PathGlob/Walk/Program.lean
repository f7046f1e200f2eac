/-
A walk as a program of requests.

A walk does two things to the world outside: it asks a tree, and it tells a
listener what it found. Both are requests here, and a walk is a tree of them: a
request, and for every answer the walk that goes on from it. What a walk asks
and in which order is then a matter of this value alone, whoever answers. The
same walk is run against a tree held in memory and against real directories,
and what two walks have in common can be said without running either.

A notice is answered as well, by nothing if the listener takes it and by an
error if it refuses. What a refusal leads to is up to the walk, which could go on
as if nothing had been said. The walks here end with the error they were given
(`tell`), and a walk that is put together from others ends when one of them
does (`bind`).

A listener can be told a match in two ways. Usually it is told every one. Where
a walk can come to the same path twice, it is told only the first time. Whether
this is the first time shows in what it has heard, which whoever runs the walk
has at hand. A walk keeps no record.
-/
import PathGlob.Mask.Matching
import PathGlob.Tree.Basic
import PathGlob.Walk.Place

set_option autoImplicit false

namespace PathGlob

/-- What a listener is told. -/
inductive Notice where
  /-- The root that all paths told later are relative to. -/
  | root (root : Text)
  /-- A path that matches. -/
  | found (path : Text)
  /-- A path about which the tree had no answer. -/
  | failed (path : Text) (fault : IoFault)
  deriving DecidableEq, Repr

/-- Why an expansion ended early. -/
inductive GlobError where
  | malformed (e : MalformedMask)
  /-- A fault of the tree, at a path relative to the root. -/
  | io (path : Text) (fault : IoFault)
  /-- A listener's own reason. -/
  | refused (reason : String)
  /-- A tree that goes down further than it said. -/
  | tooDeep
  deriving DecidableEq, Repr

/-- The wording of an error. -/
def GlobError.message : GlobError → String
  | .malformed e => e.message
  | .io path fault => String.ofList path ++ ": " ++ fault.message
  | .refused reason => reason
  | .tooDeep => "the tree is deeper than expected"

/-- Whether the notice is a match. -/
def Notice.isFound : Notice → Bool
  | .found _ => true
  | _ => false

/-- What a walk can ask for. -/
inductive Request where
  /-- The names inside a place. -/
  | list (place : Place)
  /-- Whether there is anything at a place. -/
  | probe (place : Place)
  /-- Tell the listener. -/
  | tell (notice : Notice)
  /-- Tell the listener unless it has been told the same before. -/
  | tellOnce (notice : Notice)
  deriving DecidableEq, Repr

/-- What comes back from a request. To a notice it is the error that the listener refuses
it with, or nothing. -/
abbrev Request.Answer : Request → Type
  | .list _ => Except IoFault (List Text)
  | .probe _ => Except IoFault Bool
  | .tell _ => Option GlobError
  | .tellOnce _ => Option GlobError

/-- A walk that ends with a value. -/
inductive Walk (α : Type) : Type where
  | done (value : α)
  /-- A text that had to be read as a mask is none. -/
  | malformed (e : MalformedMask)
  /-- The listener refused a notice. -/
  | stopped (e : GlobError)
  /-- The tree goes down further than it said. -/
  | tooDeep
  | ask (request : Request) (next : request.Answer → Walk α)

namespace Walk

/-- One walk after another, if the first one comes to a value. -/
def bind {α β : Type} : Walk α → (α → Walk β) → Walk β
  | .done value, f => f value
  | .malformed e, _ => .malformed e
  | .stopped e, _ => .stopped e
  | .tooDeep, _ => .tooDeep
  | .ask request next, f => .ask request fun answer => (next answer).bind f

instance : Monad Walk where
  pure := .done
  bind := Walk.bind

/-- One walk for each element, in order. -/
def each {α : Type} (step : α → Walk Unit) : List α → Walk Unit
  | [] => .done ()
  | a :: rest => do
    step a
    each step rest

/-- One walk for each element, in order, with what they bring back. -/
def collect {α β : Type} (step : α → Walk (List β)) : List α → Walk (List β)
  | [] => .done []
  | a :: rest => do
    let first ← step a
    let more ← collect step rest
    return first ++ more

/-- Nothing more to do for a notice that was taken. A refusal is the end. -/
def heeding : Option GlobError → Walk Unit
  | none => .done ()
  | some e => .stopped e

/-- Tell the listener. -/
def tell (notice : Notice) : Walk Unit := .ask (.tell notice) heeding

/-- Tell the listener, unless it has been told the same before. -/
def tellOnce (notice : Notice) : Walk Unit := .ask (.tellOnce notice) heeding

/-- The names inside a place. A fault is told, and then there are none to go on
with, which is not the same as a place with nothing inside. -/
def list (place : Place) : Walk (Option (List Text)) :=
  .ask (.list place) fun
    | .ok names => .done (some names)
    | .error fault => do
      tell (.failed place.path fault)
      return none

/-- Whether there is anything at a place. A fault is told, and then the place is
passed by as if there were nothing. -/
def probe (place : Place) : Walk Bool :=
  .ask (.probe place) fun
    | .ok answer => .done answer
    | .error fault => do
      tell (.failed place.path fault)
      return false

/-- Whether a text, read as a mask, takes a name. -/
def fits (text name : Text) : Walk Bool :=
  match Mask.fits text name with
  | .ok answer => .done answer
  | .error e => .malformed e

/-! ## The laws of sequence -/

theorem bind_assoc {α β γ : Type} (w : Walk α) (f : α → Walk β) (g : β → Walk γ) :
    (w.bind f).bind g = w.bind fun a => (f a).bind g := by
  induction w with
  | done value => rfl
  | malformed e => rfl
  | stopped e => rfl
  | tooDeep => rfl
  | ask request next ih => simp only [bind, ih]

theorem bind_done {α : Type} (w : Walk α) : w.bind .done = w := by
  induction w with
  | done value => rfl
  | malformed e => rfl
  | stopped e => rfl
  | tooDeep => rfl
  | ask request next ih => simp only [bind, ih]

/-- Walks may be put one after another as the notation suggests. -/
instance : LawfulMonad Walk :=
  LawfulMonad.mk' Walk bind_done (fun _ _ => rfl) bind_assoc

end Walk

end PathGlob
