/-
Routes: how a literal is followed down a tree.

A literal is a path with masks for some of its components. Where there are no
masks, nothing has to be listed: the whole run of plain components is one path,
and one question tells whether it is there. A component with a mask needs the
names inside the current place, and the walk goes on from each name that fits.
A route is the literal cut up in this way.

A component counts as plain when it holds no `*`, `?` or `[`, escaped or not.
An escape in a plain component is then part of the name asked for.

A route ends nowhere when a run of plain components is the empty text, as it is
before a doubled separator in front or after a separator at the end. There is
nothing to ask in that case; the steps before it are taken all the same.
-/
import PathGlob.Walk.Program

set_option autoImplicit false

namespace PathGlob

/-- The steps of a literal. -/
inductive Route where
  /-- The place reached is what the literal names. -/
  | here
  /-- No place is. -/
  | nowhere
  /-- Go on from this path if there is anything at it. -/
  | probe (path : Text) (next : Route)
  /-- Go on from every name that fits the mask. -/
  | choose (mask : Text) (next : Route)
  deriving DecidableEq, Repr

namespace Route

/-- The plain components gathered so far become one step in front of a route. -/
def closeRun (plain : List Text) (next : Route) : Route :=
  if plain.isEmpty then next
  else
    let path := Text.join plain
    if path.isEmpty then .nowhere else .probe path next

/-- The route through some components, after the plain ones already gathered. -/
def gather (plain : List Text) : List Text → Route
  | [] => closeRun plain .here
  | component :: rest =>
    if Mask.isPlain component then gather (plain ++ [component]) rest
    else closeRun plain (.choose component (gather [] rest))

/-- The route of a literal, which may begin with a separator. -/
def ofText (text : Text) : Route := gather [] (Text.components (Text.dropOpening text))

/-- Follow a route from a place. Every path it reaches is handed to `reach`, at
once and in the order of the listings; what `reach` brings back is put
together. -/
def follow (reach : Text → Walk (List Text)) : Route → Place → Walk (List Text)
  | .here, place => reach place.path
  | .nowhere, _ => .done []
  | .probe path next, place => do
    if ← Walk.probe (place.child path) then follow reach next (place.child path)
    else return []
  | .choose mask next, place => do
    match ← Walk.list place with
    | none => return []
    | some names =>
      Walk.collect (fun name => do
        if ← Walk.fits mask name then follow reach next (place.child name)
        else return []) names

end Route

end PathGlob
