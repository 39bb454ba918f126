import SzpontOS.Lib.Run
import SzpontOS.X11.WindowTree

/-!
# Who receives events

A client that selects events on a window is entered into the window's table `event_clients` with its mask, and the mask
is or-ed into `event_mask` of the window (`apply_window_attributes`). `window_send_event` looks the table up, which
names clients by their slots. Connections and windows are numbered here, so that one can say which connection selected
which mask on which window (`selected`) and which one received what (`delivered`).

An entry says that the connection in its slot selected its mask (`Inv.named`), as long as no connection takes over a
slot that a window still names. Besides, `window_send_event` serves the owner of a window by the masks of all clients;
that does no harm as long as nobody selects events on the window of a client that has not done so itself (`Inv.owner`).
-/

namespace SzpontOS.X11

open Lib Relation Function List Option Server

/-! ## What changes and what stays -/

variable {r q : Ref} {c b : Fin maxClients} {mask : BitVec 32} {s : Server}

namespace Server

/-! ## The events of a request

Each is a call of `window_send_event`: the window and the mask that asks for the event. -/

def structureNotifyMask : BitVec 32 := 1 <<< 17

def exposureMask : BitVec 32 := 1 <<< 15

def focusChangeMask : BitVec 32 := 1 <<< 21

/-- `window_set_focus`: the window that loses the focus and the one that gets it. -/
def focusSends (s : Server) (r : Ref) : List (Ref × BitVec 32) :=
  if s.focusWindow = r then []
  else
    (if s.focusWindow ≠ .root then [(s.focusWindow, focusChangeMask)] else []) ++
      if r ≠ .root then [(r, focusChangeMask)] else []

/-- `window_raise`. -/
def raiseSends (s : Server) (r : Ref) : List (Ref × BitVec 32) :=
  match (s.win r).parent with
  | none => []
  | some p => if p = r then [] else s.focusSends r

/-- `window_map`. -/
def mapSends (s : Server) (r : Ref) : List (Ref × BitVec 32) :=
  if (s.win r).mapped then []
  else
    [(r, structureNotifyMask), (r, exposureMask)] ++
      -- the parent is raised first, unless it is the root
      (match (s.win r).parent with
      | some (.slot i) => s.raiseSends (.slot i)
      | _ => []) ++
      ((s.modify r fun win => { win with mapped := true }).placeMapped r).elim [] (·.raiseSends r)

/-- `window_unmap`. -/
def unmapSends (s : Server) (r : Ref) : List (Ref × BitVec 32) :=
  if (s.win r).mapped then [(r, structureNotifyMask)] else []

/-- `handle_configure_window`. -/
def configureSends (s : Server) (r : Ref) (values : Configure) : List (Ref × BitVec 32) :=
  (if values.above then s.raiseSends r else []) ++ [(r, structureNotifyMask)]

/-- The events are for windows in use, and each has a mask. -/
def Proper (s : Server) (sends : List (Ref × BitVec 32)) : Prop := ∀ send ∈ sends, send.1 ∈ s.live ∧ send.2 ≠ 0

section

variable {kids : Ref → List Ref} {sends sends' : List (Ref × BitVec 32)}

theorem proper_nil (s : Server) : s.Proper [] := fun _ h => absurd h not_mem_nil

theorem Proper.append (h : s.Proper sends) (h' : s.Proper sends') : s.Proper (sends ++ sends') := by
  intro send hsend
  rcases mem_append.1 hsend with hmem | hmem
  · exact h send hmem
  · exact h' send hmem

theorem proper_singleton (hr : r ∈ s.live) (hmask : mask ≠ 0) : s.Proper [(r, mask)] := by
  intro send hsend
  rw [mem_singleton.1 hsend]
  exact ⟨hr, hmask⟩

section

variable (h : s.Tree kids) (hr : r ∈ s.live)

include h hr

theorem Tree.proper_focus : s.Proper (s.focusSends r) := by
  unfold focusSends
  split
  · exact proper_nil s
  · refine .append ?_ ?_
    · split
      · exact proper_singleton h.focus (by decide)
      · exact proper_nil s
    · split
      · exact proper_singleton hr (by decide)
      · exact proper_nil s

theorem Tree.proper_raise : s.Proper (s.raiseSends r) := by
  unfold raiseSends
  split
  · exact proper_nil s
  · split
    · exact proper_nil s
    · exact h.proper_focus hr

/-- A window that is mapped sends events on itself, on its parent, and on the windows the focus moves between. -/
theorem Tree.proper_map : s.Proper (s.mapSends r) := by
  have hmodify : (s.modify r fun win => { win with mapped := true }).Tree kids := h.modify fun _ => ⟨rfl, rfl⟩
  have hlive : (s.modify r fun win => { win with mapped := true }).live = s.live := Tree.live_modify fun _ => rfl
  obtain ⟨s1, kids1, hplace, h1, hput, -⟩ := hmodify.placeMapped (hlive ▸ hr)
  have hlive1 : s1.live = s.live := hput.live.trans hlive
  unfold mapSends
  split
  · exact proper_nil s
  · rw [hplace]
    refine .append (.append ?_ ?_) ?_
    · exact (proper_singleton hr (by decide)).append (proper_singleton hr (by decide))
    · split
      case h_1 i hi =>
        have hroot : r ≠ .root := by
          rintro rfl
          rw [h.top] at hi
          cases hi
        obtain ⟨p, hp, hmem⟩ := h.listed hr hroot
        obtain rfl : p = .slot i := Option.some.inj (hp.symm.trans hi)
        exact h.proper_raise (h.hier.ends _ _ hmem).1
      case h_2 => exact proper_nil s
    · intro send hsend
      have hraise := h1.proper_raise (hlive1 ▸ hr) send hsend
      rwa [hlive1] at hraise

end

theorem proper_unmap (hr : r ∈ s.live) : s.Proper (s.unmapSends r) := by
  unfold unmapSends
  split
  · exact proper_singleton hr (by decide)
  · exact proper_nil s

theorem Tree.proper_configure (h : s.Tree kids) (hr : r ∈ s.live) (values : Configure) :
    s.Proper (s.configureSends r values) := by
  refine .append ?_ (proper_singleton hr (by decide))
  split
  · exact h.proper_raise hr
  · exact proper_nil s

end

end Server

/-! ## Selections -/

/-- The event tables of a `window_t`. -/
structure Selections where
  eventMask : BitVec 32
  eventClients : Fin maxClients → Option (Fin maxClients)
  clientEventMasks : Fin maxClients → BitVec 32

def Selections.none : Selections := ⟨0, fun _ => Option.none, fun _ => 0⟩

namespace Selections

variable (t : Selections)

/-- `apply_window_attributes` with `CWEventMask`: the first entry that is free or the client's own. -/
def apply (c : Fin maxClients) (mask : BitVec 32) : Selections :=
  let t := { t with eventMask := t.eventMask ||| mask }
  match (List.finRange maxClients).find? fun i => t.eventClients i = Option.none ∨ t.eventClients i = some c with
  | Option.none => t
  | some i =>
    { t with
      eventClients := update t.eventClients i (some c)
      clientEventMasks := update t.clientEventMasks i mask }

/-- The client stands in the table. -/
def Registered (c : Fin maxClients) : Prop := ∃ i, t.eventClients i = some c

instance (c : Fin maxClients) : Decidable (t.Registered c) :=
  inferInstanceAs (Decidable (∃ i, t.eventClients i = some c))

variable {t}

theorem apply_entry {i : Fin maxClients} (h : (t.apply c mask).eventClients i = some b) :
    b = c ∧ (t.apply c mask).clientEventMasks i = mask ∨
      t.eventClients i = some b ∧ (t.apply c mask).clientEventMasks i = t.clientEventMasks i := by
  unfold apply at h ⊢
  dsimp only at h ⊢
  split at h
  case h_1 => exact .inr ⟨h, rfl⟩
  case h_2 j _ =>
    dsimp only at h ⊢
    by_cases hi : i = j
    · subst hi
      rw [update_self] at h ⊢
      exact .inl ⟨(Option.some.inj h).symm, rfl⟩
    · rw [update_of_ne hi] at h ⊢
      exact .inr ⟨h, rfl⟩

theorem Registered.apply (h : t.Registered b) (c : Fin maxClients) (mask : BitVec 32) :
    (t.apply c mask).Registered b := by
  obtain ⟨i, hi⟩ := h
  unfold Selections.apply
  dsimp only
  split
  case h_1 => exact ⟨i, hi⟩
  case h_2 j hfind =>
    have hj : t.eventClients j = Option.none ∨ t.eventClients j = some c := by
      simpa using find?_some hfind
    refine ⟨i, ?_⟩
    dsimp only
    by_cases hij : i = j
    · subst hij
      rcases hj with hj | hj
      · rw [hi] at hj
        cases hj
      · rw [update_self, ← hi, hj]
    · rw [update_of_ne hij, hi]

variable (t) in
/-- The table is filled from the front, and no client stands in it twice. -/
structure Dense : Prop where
  filled : ∀ i j, i ≤ j → t.eventClients i = Option.none → t.eventClients j = Option.none
  injective : ∀ i j b, t.eventClients i = some b → t.eventClients j = some b → i = j

theorem dense_none : Selections.none.Dense := ⟨fun _ _ _ _ => rfl, fun _ _ _ h => by cases h⟩

theorem find_spec {j : Fin maxClients}
    (h : (finRange maxClients).find? (fun i => t.eventClients i = Option.none ∨ t.eventClients i = some c) = some j) :
    (t.eventClients j = Option.none ∨ t.eventClients j = some c) ∧ ∀ i < j, ∃ b, t.eventClients i = some b ∧ b ≠ c := by
  refine ⟨by simpa using find?_some h, fun i hij => ?_⟩
  obtain ⟨-, as, bs, hcut, hbef⟩ := find?_eq_some_iff_append.1 h
  have hmem : i ∈ as := by
    have hsorted : (as ++ j :: bs).Pairwise (· < ·) := hcut ▸ pairwise_lt_finRange maxClients
    rcases mem_append.1 (hcut ▸ mem_finRange i) with hi | hi
    · exact hi
    · rcases mem_cons.1 hi with rfl | hi
      · exact absurd hij (lt_irrefl _)
      · have := rel_of_pairwise_cons (pairwise_append.1 hsorted).2.1 hi
        exact absurd hij (not_lt.2 this.le)
  have hi := hbef i hmem
  simp only [Bool.not_eq_true', decide_eq_false_iff_not, not_or] at hi
  obtain ⟨b, hb⟩ := ne_none_iff_exists'.1 hi.1
  exact ⟨b, hb, fun heq => hi.2 (heq ▸ hb)⟩

theorem Dense.apply (h : t.Dense) (c : Fin maxClients) (mask : BitVec 32) : (t.apply c mask).Dense := by
  unfold Selections.apply
  dsimp only
  split
  case h_1 => exact ⟨h.filled, h.injective⟩
  case h_2 j hfind =>
    obtain ⟨hj, hbef⟩ := find_spec hfind
    -- a client that stands in the table already gets its own entry again
    have hown : ∀ i, t.eventClients i = some c → i = j := by
      intro i hi
      rcases lt_trichotomy i j with hlt | heq | hgt
      · obtain ⟨b, hb, hne⟩ := hbef i hlt
        exact absurd (Option.some.inj (hb.symm.trans hi)) hne
      · exact heq
      · rcases hj with hj | hj
        · have := h.filled j i hgt.le hj
          rw [hi] at this
          cases this
        · exact h.injective i j c hi hj
    refine ⟨fun i k hik hi => ?_, fun i k b hi hk => ?_⟩
    · dsimp only at hi ⊢
      have hij : i ≠ j := by
        rintro rfl
        rw [update_self] at hi
        cases hi
      rw [update_of_ne hij] at hi
      have hk : k ≠ j := by
        rintro rfl
        obtain ⟨b, hb, -⟩ := hbef i (lt_of_le_of_ne hik hij)
        rw [hi] at hb
        cases hb
      rw [update_of_ne hk]
      exact h.filled i k hik hi
    · dsimp only at hi hk
      by_cases hij : i = j <;> by_cases hkj : k = j
      · rw [hij, hkj]
      · rw [hij, update_self] at hi
        rw [update_of_ne hkj] at hk
        exact absurd (hown k (hk.trans hi.symm)) hkj
      · rw [hkj, update_self] at hk
        rw [update_of_ne hij] at hi
        exact absurd (hown i (hi.trans hk.symm)) hij
      · rw [update_of_ne hij] at hi
        rw [update_of_ne hkj] at hk
        exact h.injective i k b hi hk

/-- There are as many entries as clients, so that a selection always finds one. -/
theorem Dense.apply_registered (h : t.Dense) (c : Fin maxClients) (mask : BitVec 32) :
    (t.apply c mask).Registered c := by
  unfold Selections.apply
  dsimp only
  split
  case h_2 j _ => exact ⟨j, update_self j (some c) t.eventClients⟩
  case h_1 hfind =>
    have hfull : ∀ i, ∃ b, t.eventClients i = some b ∧ b ≠ c := by
      intro i
      have hi := find?_eq_none.1 hfind i (mem_finRange i)
      simp only [decide_eq_true_eq, not_or] at hi
      obtain ⟨b, hb⟩ := ne_none_iff_exists'.1 hi.1
      exact ⟨b, hb, fun heq => hi.2 (heq ▸ hb)⟩
    choose entry hent hrest using hfull
    have hinjective : Function.Injective entry := fun i j hij => h.injective i j (entry i) (hent i) (hij ▸ hent j)
    obtain ⟨i, hi⟩ := Finite.surjective_of_injective hinjective c
    exact absurd hi (hrest i)

end Selections

/-! ## The server with its connections -/

/-- The server, its event tables, and the connections. `conn` and `serial` number the connections in the slots and the
windows, from one counter; `selected` are the selections made and `delivered` the events queued so far, as (connection,
window, mask). Each event goes out at once (`client_flush_events`), so that no queue is ever full. -/
structure Display where
  server : Server
  tables : Ref → Selections
  conn : Fin maxClients → Nat
  serial : Ref → Nat
  fresh : Nat
  selected : List (Nat × Nat × BitVec 32)
  delivered : List (Nat × Nat × BitVec 32)

/-- The requests and connections. `mask` is the value for `CWEventMask`, if the request has one. -/
inductive Request where
  | createWindow (c : Fin maxClients) (id parent : BitVec 32) (x y w h bw : BitVec 16) (mask : Option (BitVec 32))
  | changeWindowAttributes (c : Fin maxClients) (id : BitVec 32) (mask : Option (BitVec 32))
  | mapWindow (id : BitVec 32)
  | unmapWindow (id : BitVec 32)
  | configureWindow (id : BitVec 32) (values : Server.Configure)
  | destroyWindow (id : BitVec 32)
  | clientAccept
  | clientClose (c : Fin maxClients)

namespace Display

def init (width height : BitVec 16) : Display where
  server := windowInitSystem width height
  tables := fun _ => .none
  conn := fun _ => 0
  serial := fun _ => 0
  fresh := 1
  selected := []
  delivered := []

variable (d : Display)

/-- The clients that `window_send_event` queues an event for: those of the table, and then the owner. -/
def recipients (r : Ref) (mask : BitVec 32) : List (Fin maxClients) :=
  ((List.finRange maxClients).filterMap fun i =>
    ((d.tables r).eventClients i).filter fun c =>
      d.server.clients c ∧ ((d.tables r).clientEventMasks i &&& mask ≠ 0 ∨ mask = 0)) ++
    ((d.server.win r).owner.filter fun c =>
      d.server.clients c ∧ (d.tables r).eventMask &&& mask ≠ 0 ∧ ¬(d.tables r).Registered c).toList

def windowSendEvent (send : Ref × BitVec 32) : Display :=
  { d with
    delivered := d.delivered ++ (d.recipients send.1 send.2).map fun c => (d.conn c, d.serial send.1, send.2) }

/-- The events of a request, and the server after it. No event changes what the next one depends on. -/
def notify (sends : List (Ref × BitVec 32)) (s : Server) : Display :=
  { sends.foldl windowSendEvent d with server := s }

/-- `apply_window_attributes`. -/
def applyMask (r : Ref) (c : Fin maxClients) : Option (BitVec 32) → Display
  | none => d
  | some mask =>
    { d with
      tables := update d.tables r ((d.tables r).apply c mask)
      selected := d.selected ++ [(d.conn c, d.serial r, mask)] }

/-- A new window in the slot `r`. -/
def created (r : Ref) (s : Server) : Display :=
  { d with
    server := s
    tables := update d.tables r .none
    serial := update d.serial r d.fresh
    fresh := d.fresh + 1 }

/-- The slot that `client_accept` takes. -/
def freeSlot : Option (Fin maxClients) := (List.finRange maxClients).find? fun c => ¬d.server.clients c

/-- `client_accept`. -/
def accept : Display :=
  match d.freeSlot with
  | none => d
  | some c =>
    { d with
      server := d.server.clientAccept
      conn := update d.conn c d.fresh
      fresh := d.fresh + 1 }

def step : Request → Option Display
  | .createWindow c id parent x y w h bw mask =>
    if d.server.clients c then
      (d.server.windowCreate c id (d.server.windowFind parent) x y w h bw).map fun result =>
        result.1.elim { d with server := result.2 } fun r => (d.created r result.2).applyMask r c mask
    else some d
  | .changeWindowAttributes c id mask =>
    if d.server.clients c then some ((d.server.windowFind id).elim d fun r => d.applyMask r c mask) else some d
  | .mapWindow id =>
    (d.server.windowFind id).elim (some d) fun r => (d.server.windowMap r).map (d.notify (d.server.mapSends r))
  | .unmapWindow id =>
    some ((d.server.windowFind id).elim d fun r => d.notify (d.server.unmapSends r) (d.server.windowUnmap r))
  | .configureWindow id values =>
    (d.server.windowFind id).elim (some d) fun r =>
      (d.server.handleConfigureWindow r values).map (d.notify (d.server.configureSends r values))
  | .destroyWindow id => (d.server.windowFind id).elim (some d) fun r => (d.server.windowDestroy r).map (d.notify [])
  | .clientAccept => some d.accept
  | .clientClose c => (d.server.clientClose c).map (d.notify [])

/-- A request that does no harm. A new connection takes a slot that no window in use names; events are selected on a
window without owner, on the client's own, or on one whose owner has selected events on it before. -/
def Careful : Request → Prop
  | .clientAccept => ∀ c, d.freeSlot = some c → ∀ r ∈ d.server.live, ¬(d.tables r).Registered c
  | .changeWindowAttributes c id (some _) =>
    ∀ r, d.server.windowFind id = some r → ∀ o, (d.server.win r).owner = some o → o = c ∨ (d.tables r).Registered o
  | _ => True

/-! ## The invariant -/

/-- Every event delivered was selected by the same connection on the same window. -/
def Selected : Prop :=
  ∀ k w mask, (k, w, mask) ∈ d.delivered → ∃ chosen, (k, w, chosen) ∈ d.selected ∧ chosen &&& mask ≠ 0

structure Inv : Prop where
  tree : ∃ kids, d.server.Tree kids
  dense : ∀ r, (d.tables r).Dense
  /-- an entry of a client in use stands for a selection of its connection -/
  named : ∀ r ∈ d.server.live, ∀ i c, (d.tables r).eventClients i = some c → d.server.clients c = true →
    (d.conn c, d.serial r, (d.tables r).clientEventMasks i) ∈ d.selected
  /-- nobody has selected events on the window of a client that is not in its table -/
  owner : ∀ r o, (d.server.win r).owner = some o → ¬(d.tables r).Registered o → (d.tables r).eventMask = 0
  selected : d.Selected

variable {d}

theorem inv_init (width height : BitVec 16) : (init width height).Inv where
  tree := ⟨_, .init width height⟩
  dense _ := Selections.dense_none
  named _ _ _ _ hent := by cases hent
  owner _ _ _ _ := rfl
  selected _ _ _ hmem := absurd hmem not_mem_nil

/-- An event is queued only for clients of the table whose mask matches, once the owner is in the table too. -/
theorem Inv.recipients (h : d.Inv) (hr : r ∈ d.server.live) (hmask : mask ≠ 0) (hc : c ∈ d.recipients r mask) :
    ∃ chosen, (d.conn c, d.serial r, chosen) ∈ d.selected ∧ chosen &&& mask ≠ 0 := by
  rcases mem_append.1 hc with htab | hown
  · obtain ⟨i, -, hi⟩ := mem_filterMap.1 htab
    obtain ⟨hent, hwants⟩ := filter_eq_some_iff.1 hi
    obtain ⟨hact, hmatch⟩ := of_decide_eq_true hwants
    exact ⟨_, h.named r hr i c hent hact, hmatch.resolve_right hmask⟩
  · obtain ⟨howns, hwants⟩ := filter_eq_some_iff.1 (mem_toList.1 hown)
    obtain ⟨-, hmatch, hlost⟩ := of_decide_eq_true hwants
    rw [h.owner r c howns hlost] at hmatch
    exact absurd BitVec.zero_and hmatch

theorem Inv.windowSendEvent (h : d.Inv) {send : Ref × BitVec 32} (hlive : send.1 ∈ d.server.live) (hmask : send.2 ≠ 0) :
    (d.windowSendEvent send).Inv where
  tree := h.tree
  dense := h.dense
  named := h.named
  owner := h.owner
  selected := by
    intro k w mask hmem
    rcases mem_append.1 hmem with hold | hnew
    · exact h.selected k w mask hold
    · obtain ⟨c, hc, heq⟩ := mem_map.1 hnew
      cases heq
      exact h.recipients hlive hmask hc

theorem Inv.sends (h : d.Inv) {sends : List (Ref × BitVec 32)} (hproper : d.server.Proper sends) :
    (sends.foldl Display.windowSendEvent d).Inv ∧ (sends.foldl Display.windowSendEvent d).server = d.server := by
  induction sends generalizing d with
  | nil => exact ⟨h, rfl⟩
  | cons send sends ih =>
    obtain ⟨hlive, hmask⟩ := hproper send mem_cons_self
    exact ih (h.windowSendEvent hlive hmask) fun other hrest => hproper other (mem_cons_of_mem _ hrest)

theorem Inv.shrinks (h : d.Inv) (hs : d.server.Shrinks s) (htree : ∃ kids, s.Tree kids) :
    { d with server := s }.Inv where
  tree := htree
  dense := h.dense
  named r hr i c hent hact := h.named r (hs.live hr) i c hent (hs.clients c hact)
  owner r o hown := h.owner r o ((hs.owner r).symm.trans hown)
  selected := h.selected

theorem Inv.notify (h : d.Inv) {sends : List (Ref × BitVec 32)} (hproper : d.server.Proper sends)
    (hs : d.server.Shrinks s) (htree : ∃ kids, s.Tree kids) : (d.notify sends s).Inv := by
  obtain ⟨hsent, hserver⟩ := h.sends hproper
  exact hsent.shrinks (hserver ▸ hs) htree

/-- **A selection.** The owner of the window is in its table afterwards. -/
theorem Inv.applyMask (h : d.Inv) {mask : Option (BitVec 32)}
    (hown : mask ≠ none → ∀ o, (d.server.win r).owner = some o → o = c ∨ (d.tables r).Registered o) :
    (d.applyMask r c mask).Inv := by
  cases mask with
  | none => exact h
  | some mask =>
    have hcase : ∀ q, q = r ∧ (d.applyMask r c (some mask)).tables q = (d.tables r).apply c mask ∨
        q ≠ r ∧ (d.applyMask r c (some mask)).tables q = d.tables q := by
      intro q
      by_cases hq : q = r
      · subst hq
        exact .inl ⟨rfl, update_self q _ d.tables⟩
      · exact .inr ⟨hq, update_of_ne hq _ d.tables⟩
    have hkept : ∀ entry ∈ d.selected, entry ∈ (d.applyMask r c (some mask)).selected :=
      fun entry hent => mem_append_left _ hent
    refine ⟨h.tree, fun q => ?_, fun q hq i b hent hact => ?_, fun q o ho hlost => ?_, fun k w m hmem => ?_⟩
    · rcases hcase q with ⟨-, heq⟩ | ⟨-, heq⟩
      · rw [heq]
        exact (h.dense r).apply c mask
      · rw [heq]
        exact h.dense q
    · rcases hcase q with ⟨rfl, heq⟩ | ⟨-, heq⟩
      · rw [heq] at hent ⊢
        rcases Selections.apply_entry hent with ⟨rfl, hmask⟩ | ⟨hold, hmask⟩
        · rw [hmask]
          exact mem_append_right _ (mem_singleton_self _)
        · rw [hmask]
          exact hkept _ (h.named q hq i b hold hact)
      · rw [heq] at hent ⊢
        exact hkept _ (h.named q hq i b hent hact)
    · rcases hcase q with ⟨rfl, heq⟩ | ⟨-, heq⟩
      · rw [heq] at hlost
        rcases hown (some_ne_none mask) o ho with rfl | hreg
        · exact absurd ((h.dense q).apply_registered o mask) hlost
        · exact absurd (hreg.apply c mask) hlost
      · rw [heq] at hlost ⊢
        exact h.owner q o ho hlost
    · obtain ⟨chosen, hchosen, hmatch⟩ := h.selected k w m hmem
      exact ⟨chosen, hkept _ hchosen, hmatch⟩

theorem tables_created_self (d : Display) (r : Ref) (s : Server) : (d.created r s).tables r = .none :=
  update_self r _ d.tables

theorem tables_created_of_ne (hqr : q ≠ r) (s : Server) : (d.created r s).tables q = d.tables q :=
  update_of_ne hqr _ d.tables

theorem serial_created_of_ne (hqr : q ≠ r) (s : Server) : (d.created r s).serial q = d.serial q :=
  update_of_ne hqr _ d.serial

theorem Inv.created (h : d.Inv) {win : Window} (hwin : s.win = update d.server.win r win)
    (hclients : s.clients = d.server.clients) (htree : ∃ kids, s.Tree kids) : (d.created r s).Inv := by
  refine ⟨htree, fun q => ?_, fun q hq i c hent hact => ?_, fun q o ho hlost => ?_, h.selected⟩
  · by_cases hqr : q = r
    · rw [hqr, tables_created_self]
      exact Selections.dense_none
    · rw [tables_created_of_ne hqr]
      exact h.dense q
  · by_cases hqr : q = r
    · rw [hqr, tables_created_self] at hent
      cases hent
    · have hold : q ∈ d.server.live := by
        have hq' : (s.win q).isActive = true := hq
        rwa [hwin, update_of_ne hqr] at hq'
      have hact' : d.server.clients c = true := hclients ▸ hact
      rw [tables_created_of_ne hqr] at hent ⊢
      rw [serial_created_of_ne hqr]
      exact h.named q hold i c hent hact'
  · by_cases hqr : q = r
    · rw [hqr, tables_created_self]
      rfl
    · have ho' : (s.win q).owner = some o := ho
      rw [hwin, update_of_ne hqr] at ho'
      rw [tables_created_of_ne hqr] at hlost ⊢
      exact h.owner q o ho' hlost

theorem Inv.accept (h : d.Inv) (hcare : d.Careful .clientAccept) : d.accept.Inv := by
  obtain ⟨kids, htree⟩ := h.tree
  unfold Display.accept
  split
  case h_1 => exact h
  case h_2 c hfree =>
    have hnew : d.server.clientAccept.clients = update d.server.clients c true := by
      have hfind : (finRange maxClients).find? (fun c => ¬d.server.clients c) = some c := hfree
      unfold clientAccept
      rw [hfind]
    have hwin : d.server.clientAccept.win = d.server.win := by
      unfold clientAccept
      split <;> rfl
    refine ⟨⟨kids, htree.clientAccept⟩, h.dense, fun r hr i b hent hact => ?_, fun r o ho => ?_, h.selected⟩
    · have hr' : r ∈ d.server.live := by
        have hr' : (d.server.clientAccept.win r).isActive = true := hr
        rwa [hwin] at hr'
      have hbc : b ≠ c := by
        rintro rfl
        exact hcare b hfree r hr' ⟨i, hent⟩
      have hact' : d.server.clientAccept.clients b = true := hact
      rw [hnew, update_of_ne hbc] at hact'
      show (update d.conn c d.fresh b, _, _) ∈ _
      rw [update_of_ne hbc]
      exact h.named r hr' i b hent hact'
    · refine h.owner r o ?_
      have ho' : (d.server.clientAccept.win r).owner = some o := ho
      rwa [hwin] at ho'

theorem windowCreate_cases {id : BitVec 32} {parent : Option Ref} {x y w h bw : BitVec 16}
    {result : Option Ref × Server} (hrun : s.windowCreate c id parent x y w h bw = some result) :
    result = (none, s) ∨ ∃ r win, result.1 = some r ∧ result.2.win = update s.win r win ∧ win.owner = some c ∧
      result.2.clients = s.clients := by
  unfold windowCreate at hrun
  split at hrun
  case h_1 =>
    cases hrun
    exact .inl rfl
  case h_2 i _ =>
    obtain ⟨links, -, rfl⟩ := map_eq_some_iff.1 hrun
    exact .inr ⟨.slot i, _, rfl, rfl, rfl, rfl⟩

theorem Inv.onFound (h : d.Inv) (id : BitVec 32) {f : Ref → Option Display}
    (hf : ∀ r ∈ d.server.live, d.server.windowFind id = some r → ∃ d', f r = some d' ∧ d'.Inv) :
    ∃ d', (d.server.windowFind id).elim (some d) f = some d' ∧ d'.Inv := by
  obtain ⟨kids, htree⟩ := h.tree
  cases hfind : d.server.windowFind id with
  | none => exact ⟨d, rfl, h⟩
  | some r => exact hf r (htree.windowFind_live hfind) hfind

theorem Inv.step (h : d.Inv) {req : Request} (hcare : d.Careful req) : ∃ d', d.step req = some d' ∧ d'.Inv := by
  obtain ⟨kids, htree⟩ := h.tree
  cases req with
  | createWindow c id parent x y w ht bw mask =>
    rw [Display.step]
    split
    case isFalse => exact ⟨d, rfl, h⟩
    case isTrue =>
      obtain ⟨result, hrun, hkids⟩ := htree.windowCreate (fun a ha => htree.windowFind_live ha) c id x y w ht bw
      refine ⟨_, by rw [hrun]; rfl, ?_⟩
      rcases windowCreate_cases hrun with rfl | ⟨r, win, hr, hwin, hown, hclients⟩
      · exact h
      · dsimp only
        rw [hr]
        refine (h.created hwin hclients hkids).applyMask fun _ o ho => .inl ?_
        -- the new window belongs to the client that selects events on it
        have ho' : (result.2.win r).owner = some o := ho
        rw [hwin, update_self, hown] at ho'
        exact (Option.some.inj ho').symm
  | changeWindowAttributes c id mask =>
    rw [Display.step]
    split
    case isFalse => exact ⟨d, rfl, h⟩
    case isTrue =>
      refine ⟨_, rfl, ?_⟩
      cases hfind : d.server.windowFind id with
      | none => exact h
      | some r =>
        refine h.applyMask fun hmask o ho => ?_
        cases mask with
        | none => exact absurd rfl hmask
        | some mask => exact hcare r hfind o ho
  | mapWindow id =>
    refine h.onFound id fun r hr _ => ?_
    obtain ⟨s', kids', hrun, htree', hless, -⟩ := htree.windowMap hr
    refine ⟨_, by rw [hrun]; rfl, h.notify (htree.proper_map hr) hless ⟨kids', htree'⟩⟩
  | unmapWindow id =>
    refine ⟨_, rfl, ?_⟩
    cases hfind : d.server.windowFind id with
    | none => exact h
    | some r =>
      obtain ⟨htree', hless⟩ := htree.windowUnmap (r := r)
      exact h.notify (proper_unmap (htree.windowFind_live hfind)) hless ⟨kids, htree'⟩
  | configureWindow id values =>
    refine h.onFound id fun r hr _ => ?_
    obtain ⟨s', kids', hrun, htree', hless⟩ := htree.handleConfigureWindow hr values
    exact ⟨_, by rw [hrun]; rfl, h.notify (htree.proper_configure hr values) hless ⟨kids', htree'⟩⟩
  | destroyWindow id =>
    refine h.onFound id fun r hr _ => ?_
    obtain ⟨s', kids', hrun, htree', hless⟩ := htree.windowDestroy hr
    exact ⟨_, by rw [hrun]; rfl, h.notify (proper_nil _) hless ⟨kids', htree'⟩⟩
  | clientAccept => exact ⟨_, rfl, h.accept hcare⟩
  | clientClose c =>
    obtain ⟨s', kids', hrun, htree', hless⟩ := htree.clientClose c
    refine ⟨d.notify [] s', ?_, h.notify (proper_nil _) hless ⟨kids', htree'⟩⟩
    rw [Display.step, hrun]
    rfl

def run (d : Display) (reqs : List Request) : Option Display := reqs.foldlM step d

/-- A request of a run in which all are harmless. -/
def CarefulStep (d d' : Display) : Prop := ∃ req, d.Careful req ∧ d.step req = some d'

end Display

/-- **Events.** After any requests and connections of which each was harmless, every event that was queued had been
selected, by a matching mask, by the same connection on the same window. -/
theorem events_selected (width height : BitVec 16) (d : Display)
    (hrun : ReflTransGen Display.CarefulStep (Display.init width height) d) :
    ∀ k w mask, (k, w, mask) ∈ d.delivered → ∃ chosen, (k, w, chosen) ∈ d.selected ∧ chosen &&& mask ≠ 0 := by
  have hstep : ∀ d d' : Display, d.Inv → Display.CarefulStep d d' → d'.Inv := by
    rintro d d' h ⟨req, hcareful, hreq⟩
    obtain ⟨d'', hdone, h'⟩ := h.step hcareful
    rw [hreq] at hdone
    cases hdone
    exact h'
  exact (invariant_of_step hstep (Display.inv_init width height) hrun).selected

def secondClient : Fin maxClients := ⟨1, by decide⟩

/-- A client creates a window, selects `StructureNotify` on it and maps it. -/
theorem events_selected_window : ∃ d, ReflTransGen Display.CarefulStep (Display.init 640 480) d ∧
      d.delivered = [(1, 2, structureNotifyMask)] ∧
      ∀ k w mask, (k, w, mask) ∈ d.delivered → ∃ chosen, (k, w, chosen) ∈ d.selected ∧ chosen &&& mask ≠ 0 := by
  have hdone : ((((Display.init 640 480).step .clientAccept).bind
      (·.step (.createWindow firstClient 0x200001 1 0 0 9 9 0 (some structureNotifyMask)))).bind
        (·.step (.mapWindow 0x200001))).map (·.delivered) = some [(1, 2, structureNotifyMask)] := by
    decide +kernel
  obtain ⟨d, hboth, hdelivered⟩ := Option.map_eq_some_iff.1 hdone
  obtain ⟨d₂, hfirst, hmap⟩ := Option.bind_eq_some_iff.1 hboth
  obtain ⟨d₁, haccept, hcreate⟩ := Option.bind_eq_some_iff.1 hfirst
  have hcareful : (Display.init 640 480).Careful .clientAccept := by
    rintro c - r - ⟨i, hi⟩
    cases hi
  have hrun : ReflTransGen Display.CarefulStep (Display.init 640 480) d :=
    .tail (.tail (.single ⟨.clientAccept, hcareful, haccept⟩) ⟨.createWindow .., trivial, hcreate⟩)
      ⟨.mapWindow .., trivial, hmap⟩
  exact ⟨d, hrun, hdelivered, events_selected 640 480 d hrun⟩

/-- A client selects events on the root window and leaves, and another one is accepted into its slot. -/
def slotReuse : List Request :=
  [.clientAccept, .changeWindowAttributes firstClient 1 (some structureNotifyMask), .clientClose firstClient,
    .clientAccept, .configureWindow 1 ⟨none, none, none, none, none, false⟩]

/-- A client selects events on the window of another one, which has selected none. -/
def foreignWindow : List Request :=
  [.clientAccept, .clientAccept, .createWindow firstClient 0x200001 1 0 0 9 9 0 none,
    .changeWindowAttributes secondClient 0x200001 (some structureNotifyMask), .mapWindow 0x200001]

/-- Events that only the earlier client in the slot selected go to the later one; events that only another client selected
go to the owner of the window. -/
theorem events_not_selected : (∃ d, (Display.init 640 480).run slotReuse = some d ∧
      d.delivered = [(2, 0, structureNotifyMask)] ∧ d.selected = [(1, 0, structureNotifyMask)]) ∧
    ∃ d, (Display.init 640 480).run foreignWindow = some d ∧
      d.delivered = [(2, 3, structureNotifyMask), (1, 3, structureNotifyMask)] ∧
      d.selected = [(2, 3, structureNotifyMask)] := by
  have hreuse : ((Display.init 640 480).run slotReuse).map (fun d => (d.delivered, d.selected)) =
      some ([(2, 0, structureNotifyMask)], [(1, 0, structureNotifyMask)]) := by
    decide +kernel
  have hforeign : ((Display.init 640 480).run foreignWindow).map (fun d => (d.delivered, d.selected)) =
      some ([(2, 3, structureNotifyMask), (1, 3, structureNotifyMask)],
        [(2, 3, structureNotifyMask)]) := by
    decide +kernel
  obtain ⟨d, hrun, hlogs⟩ := Option.map_eq_some_iff.1 hreuse
  obtain ⟨d', hrun', hlogs'⟩ := Option.map_eq_some_iff.1 hforeign
  exact ⟨⟨d, hrun, congrArg Prod.fst hlogs, congrArg Prod.snd hlogs⟩,
    ⟨d', hrun', congrArg Prod.fst hlogs', congrArg Prod.snd hlogs'⟩⟩

end SzpontOS.X11
