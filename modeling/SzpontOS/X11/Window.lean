import Mathlib.Data.List.FinRange
import SzpontOS.Lib.Singly

/-!
# Windows of the X server

The window pool of `window.c`, the requests of `dispatch.c` on it, and `client_close`. A window is the root or a slot of
the pool, and the pointers between windows are the ones of the source, with the sibling lists walked from the front. A
walk or a recursion that would not end gives nothing. Events, pixmaps, properties and damage are left out: the windows
do not depend on them.
-/

namespace SzpontOS.X11

open Lib Function

def maxWindows : Nat := 256

def maxClients : Nat := 32

/-- A `window_t` of the server: `root_window` or one of the pool. -/
inductive Ref
  | root
  | slot (i : Fin maxWindows)
deriving DecidableEq

/-- `window_t` without the pointers to children and siblings. -/
structure Window where
  id : BitVec 32
  owner : Option (Fin maxClients)
  parent : Option Ref
  x : BitVec 16
  y : BitVec 16
  width : BitVec 16
  height : BitVec 16
  borderWidth : BitVec 16
  mapped : Bool
  isActive : Bool

/-- `g_server`. The pointers `first_child` and `next_sibling` of all windows are `links`. -/
structure Server where
  win : Ref → Window
  links : Singly Ref Ref
  focusWindow : Ref
  pointerWindow : Ref
  clients : Fin maxClients → Bool
  width : Int

/-- No walk along a sibling list takes more steps than there are windows. -/
def walkFuel : Nat := 257

/-- A recursion enters a window and goes on to its sibling at most once each. -/
def destroyFuel : Nat := 514

namespace Server

variable (s : Server)

def modify (r : Ref) (f : Window → Window) : Server := { s with win := update s.win r (f (s.win r)) }

def windowInitSystem (width height : BitVec 16) : Server where
  win
    | .root => ⟨1, none, none, 0, 0, width, height, 0, true, true⟩
    | .slot _ => ⟨0, none, none, 0, 0, 0, 0, 0, false, false⟩
  links := ⟨fun _ => none, fun _ => none⟩
  focusWindow := .root
  pointerWindow := .root
  clients := fun _ => false
  width := width.toNat

def windowFind (id : BitVec 32) : Option Ref :=
  if id = 1 ∨ id = (s.win .root).id then some .root
  else ((List.finRange maxWindows).find? fun i => (s.win (.slot i)).isActive ∧ (s.win (.slot i)).id = id).map .slot

/-- `window_create`: the window, and `NULL` when the pool is full. -/
def windowCreate (c : Fin maxClients) (id : BitVec 32) (parent : Option Ref) (x y w h bw : BitVec 16) :
    Option (Option Ref × Server) :=
  match (List.finRange maxWindows).find? fun i => ¬ (s.win (.slot i)).isActive with
  | none => some (none, s)
  | some i =>
    let new := Ref.slot i
    let above := parent.getD .root
    let cleared : Singly Ref Ref := ⟨update s.links.first new none, update s.links.next new none⟩
    (cleared.pushBack walkFuel above new).map fun links =>
      (some new, { s with
        win := update s.win new ⟨id, some c, some above, x, y, w, h, bw, false, true⟩
        links := links })

/-- What `window_destroy` does once the children are gone. -/
def retire (r : Ref) : Option Server :=
  (match (s.win r).parent with
  | none => some s.links
  | some p => s.links.unlink walkFuel p r).map fun links =>
    { s with
      links := links
      focusWindow := if s.focusWindow = r then .root else s.focusWindow
      pointerWindow := if s.pointerWindow = r then .root else s.pointerWindow
      win := update s.win r { s.win r with isActive := false, id := 0 } }

mutual

def windowDestroyFuel (fuel : Nat) (s : Server) (r : Ref) : Option Server :=
  match fuel with
  | 0 => none
  | fuel + 1 => if r = .root then some s else (destroyChildren fuel s (s.links.first r)).bind fun s => s.retire r

/-- The loop of `window_destroy` over the children, which reads the next sibling before a child goes. -/
def destroyChildren (fuel : Nat) (s : Server) (child : Option Ref) : Option Server :=
  match fuel, child with
  | _, none => some s
  | 0, some _ => none
  | fuel + 1, some r => (windowDestroyFuel fuel s r).bind fun s' => destroyChildren fuel s' (s.links.next r)

end

def windowDestroy (r : Ref) : Option Server := windowDestroyFuel destroyFuel s r

/-- `window_raise`, which ends with `window_set_focus`. -/
def windowRaise (r : Ref) : Option Server :=
  match (s.win r).parent with
  | none => some s
  | some p =>
    if p = r then some s
    else
      (s.links.unlink walkFuel p r).bind fun cut =>
        (Singly.pushBack ⟨cut.first, update cut.next r none⟩ walkFuel p r).map fun links =>
          { s with links := links, focusWindow := r }

/-- The window that `window_map` raises first is the parent; a parent of no size takes the place and the size of the
window. A top-level window at the origin is moved. -/
def placeMapped (r : Ref) : Option Server :=
  match (s.win r).parent with
  | none => some s
  | some .root =>
    if (s.win r).x = 0 ∧ (s.win r).y = 0 ∧ ((s.win r).width.toNat : Int) < s.width ∧ (s.win r).id ≠ 0x400001 then
      some (s.modify r fun win => { win with x := 120, y := 80 })
    else some s
  | some (.slot i) =>
    let above := s.win (.slot i)
    let grown :=
      if above.x = 0 ∧ above.y = 0 ∧ above.width.toNat ≤ 1 ∧ above.height.toNat ≤ 1 then
        s.modify (.slot i) fun win =>
          { win with x := 120, y := 80, width := (s.win r).width, height := (s.win r).height }
      else s
    grown.windowRaise (.slot i)

def windowMap (r : Ref) : Option Server :=
  if (s.win r).mapped then some s
  else
    ((s.modify r fun win => { win with mapped := true }).placeMapped r).bind fun s' =>
      (s'.windowRaise r).map fun s' => { s' with focusWindow := r }

/-- The loop of `X_MapSubwindows` from `child` on, with the windows it visits. It reads the next sibling of a window after
it has mapped the window. -/
def mapSiblings : Nat → Server → Option Ref → Option (List Ref × Server)
  | _, s, none => some ([], s)
  | 0, _, some _ => none
  | fuel + 1, s, some r =>
    (s.windowMap r).bind fun s' => (mapSiblings fuel s' (s'.links.next r)).map fun rest => (r :: rest.1, rest.2)

def mapSubwindows (r : Ref) : Option (List Ref × Server) := mapSiblings walkFuel s (s.links.first r)

def windowUnmap (r : Ref) : Server :=
  if ¬ (s.win r).mapped then s
  else
    { s.modify r fun win => { win with mapped := false } with
      focusWindow := if s.focusWindow = r then .root else s.focusWindow }

def windowConfigure (r : Ref) (x y w h bw : BitVec 16) : Server :=
  s.modify r fun win => { win with x := x, y := y, borderWidth := bw, width := w, height := h }

/-- The values of a `ConfigureWindow` request that its mask names; `above` is `CWStackMode` with `Above`. -/
structure Configure where
  x : Option (BitVec 16)
  y : Option (BitVec 16)
  width : Option (BitVec 16)
  height : Option (BitVec 16)
  borderWidth : Option (BitVec 16)
  above : Bool

/-- `handle_configure_window` for the window found. -/
def handleConfigureWindow (r : Ref) (values : Configure) : Option Server :=
  let old := s.win r
  (if values.above then s.windowRaise r else some s).map fun s' =>
    s'.windowConfigure r (values.x.getD old.x) (values.y.getD old.y) (values.width.getD old.width)
      (values.height.getD old.height) (values.borderWidth.getD old.borderWidth)

def clientAccept : Server :=
  match (List.finRange maxClients).find? fun c => ¬ s.clients c with
  | none => s
  | some c => { s with clients := update s.clients c true }

/-- `client_close` scans the pool once, destroying the client's windows with all that is below them. -/
def clientClose (c : Fin maxClients) : Option Server :=
  if s.clients c then
    ((List.finRange maxWindows).foldlM (fun s i =>
      if (s.win (.slot i)).isActive ∧ (s.win (.slot i)).owner = some c then s.windowDestroy (.slot i) else some s) s).map
        fun s' => { s' with clients := update s'.clients c false }
  else some s

/-- What clients and the input devices ask for. A window that is raised by a click is given as the server has it, by its
slot. -/
inductive Op
  | createWindow (c : Fin maxClients) (id parent : BitVec 32) (x y w h bw : BitVec 16)
  | destroyWindow (id : BitVec 32)
  | mapWindow (id : BitVec 32)
  | unmapWindow (id : BitVec 32)
  | configureWindow (id : BitVec 32) (values : Configure)
  | raise (r : Ref)
  | clientAccept
  | clientClose (c : Fin maxClients)

def step (op : Op) : Option Server :=
  match op with
  | .createWindow c id parent x y w h bw => (s.windowCreate c id (s.windowFind parent) x y w h bw).map Prod.snd
  | .destroyWindow id => (s.windowFind id).elim (some s) s.windowDestroy
  | .mapWindow id => (s.windowFind id).elim (some s) s.windowMap
  | .unmapWindow id => some ((s.windowFind id).elim s s.windowUnmap)
  | .configureWindow id values => (s.windowFind id).elim (some s) (s.handleConfigureWindow · values)
  | .raise r => if (s.win r).isActive then s.windowRaise r else some s
  | .clientAccept => some s.clientAccept
  | .clientClose c => s.clientClose c

def run (ops : List Op) : Option Server := ops.foldlM step s

end Server

end SzpontOS.X11
