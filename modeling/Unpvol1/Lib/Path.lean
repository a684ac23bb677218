import Mathlib.Data.List.Basic

/-!
# Lib.Path

Paths of names between separators, with components that stay (`dot`) or go up (`dot dot`),
resolved by their text alone.

* `resolve` — the names an absolute path leads to; the root has nothing above it.
* `Route`, `route` — a path from an unknown place: how far above its start it gets, and the names it
  goes down from there.
* `resolve_append` — a path behind a directory is its route from there.
* `Under` — within a directory; `Route.Within` — a route that ends within the directory it starts
  in; `under_append` — they agree.
-/

namespace Unpvol1.Path

section Names

variable {α : Type} [DecidableEq α]

/-- One component, on the names so far with the last one in front. -/
def enter (dot : α) (names : List (List α)) (c : List α) : List (List α) :=
  if c = [] ∨ c = [dot] then names
  else if c = [dot, dot] then names.tail
  else c :: names

/-- The names of an absolute path, resolved. -/
def resolve (sep dot : α) (path : List α) : List (List α) :=
  ((path.splitOn sep).foldl (enter dot) []).reverse

end Names

/-- `names`, the last one in front, below the `ups`-th directory above the start. -/
structure Route (α : Type) where
  ups : Nat
  names : List (List α)
  deriving DecidableEq, Repr

namespace Route

variable {α : Type}

def start : Route α := { ups := 0, names := [] }

/-- The names the route leads to from a directory. -/
def leadsTo (r : Route α) (names : List (List α)) : List (List α) := r.names ++ names.drop r.ups

/-- From the directory `dir` the route comes back into it: the names it goes down begin with those
it has left. -/
def Within (dir : List (List α)) (r : Route α) : Prop :=
  dir.drop (dir.length - r.ups) <+: r.names.reverse

instance [DecidableEq α] (dir : List (List α)) (r : Route α) : Decidable (r.Within dir) :=
  inferInstanceAs (Decidable (_ <+: _))

theorem start_leadsTo (names : List (List α)) : (start : Route α).leadsTo names = names := rfl

/-- A route that never gets above its start stays within. -/
theorem within_of_ups {r : Route α} (h : r.ups = 0) (dir : List (List α)) : r.Within dir := by
  rw [Within, h, Nat.sub_zero, List.drop_length]
  exact List.nil_prefix

variable [DecidableEq α]

def enter (dot : α) (r : Route α) (c : List α) : Route α :=
  if c = [] ∨ c = [dot] then r
  else if c = [dot, dot] then
    match r.names with
    | [] => { r with ups := r.ups + 1 }
    | _ :: names => { r with names := names }
  else { r with names := c :: r.names }

theorem enter_leadsTo (dot : α) (r : Route α) (c : List α) (names : List (List α)) :
    (r.enter dot c).leadsTo names = Path.enter dot (r.leadsTo names) c := by
  unfold enter Path.enter
  split
  · rfl
  · split
    · cases h : r.names with
      | nil => simp only [leadsTo, h, List.nil_append, List.tail_drop]
      | cons n ns => simp only [leadsTo, h, List.cons_append, List.tail_cons]
    · rfl

/-- By induction on the components. -/
theorem foldl_leadsTo (dot : α) (cs : List (List α)) (r : Route α) (names : List (List α)) :
    (cs.foldl (enter dot) r).leadsTo names = cs.foldl (Path.enter dot) (r.leadsTo names) := by
  induction cs generalizing r with
  | nil => rfl
  | cons c cs ih =>
    rw [List.foldl_cons, List.foldl_cons, ih, enter_leadsTo]

end Route

variable {α : Type} [DecidableEq α]

def route (sep dot : α) (path : List α) : Route α :=
  (path.splitOn sep).foldl (Route.enter dot) .start

/-- Resolved, the path lies in the directory or is the directory. -/
def Under (sep dot : α) (dir path : List α) : Prop :=
  resolve sep dot dir <+: resolve sep dot path

instance (sep dot : α) (dir path : List α) : Decidable (Under sep dot dir path) :=
  inferInstanceAs (Decidable (_ <+: _))

section Append

variable (sep dot : α) (dir path : List α)

theorem resolve_append : resolve sep dot (dir ++ sep :: path) =
    (resolve sep dot dir).take ((resolve sep dot dir).length - (route sep dot path).ups) ++
      (route sep dot path).names.reverse := by
  have h := Route.foldl_leadsTo dot (path.splitOn sep) .start
    ((dir.splitOn sep).foldl (enter dot) [])
  rw [Route.start_leadsTo] at h
  rw [resolve, List.splitOn_append_cons_self, List.foldl_append, ← h, Route.leadsTo,
    List.reverse_append, List.reverse_drop]
  simp only [resolve, route, List.length_reverse]

/-- A path behind a directory lies in it if and only if its route stays within it. -/
theorem under_append :
    Under sep dot dir (dir ++ sep :: path) ↔
      (route sep dot path).Within (resolve sep dot dir) := by
  rw [Under, resolve_append, Route.Within]
  generalize resolve sep dot dir = names
  generalize (route sep dot path).ups = n
  generalize (route sep dot path).names.reverse = down
  have hsplit := List.take_append_drop (names.length - n) names
  calc names <+: names.take (names.length - n) ++ down
      ↔ names.take (names.length - n) ++ names.drop (names.length - n) <+:
          names.take (names.length - n) ++ down := by rw [hsplit]
    _ ↔ names.drop (names.length - n) <+: down := List.prefix_append_right_inj _

/-- A leading separator does not matter to a route. -/
theorem route_sep : route sep dot (sep :: path) = route sep dot path := by
  have h := List.splitOn_append_cons_self (a := sep) [] path
  rw [List.nil_append] at h
  rw [route, h, List.splitOn_nil]
  rfl

theorem under_self : Under sep dot dir dir := List.prefix_rfl

end Append

end Unpvol1.Path
