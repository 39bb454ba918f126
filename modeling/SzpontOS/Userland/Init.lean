import Mathlib
import SzpontOS.Libc.Text

/-!
# Terminal sessions of `init` (`userland/init/main.c`)

`init` keeps a list of sessions, one for each line of `/etc/ttys`, and starts a child on the device of each line that is
switched on. When a child exits, the session is started again. What the kernel does is given with each event: whether
the device exists, and whether `fork` succeeds and with which process id. An id that a child still has is never given
again; an answer of that kind counts as a failed `fork`.

Every child that runs is the one its session names (`Inv.owned`), and a session starts a child only after its last one
is gone. There is one session per line as long as `/etc/ttys` is read once, and its lines are read as they are:
`state_clean_ttys` reads it again without dropping the sessions there are.
-/

namespace SzpontOS.Userland

open Lib Libc List

/-! ## Reading `/etc/ttys` -/

/-- `session_t`. The bits of `flags` are `on`, `ifExists` and `secure`. -/
structure Session where
  device : List UInt8
  command : List UInt8
  type : List UInt8
  on : Bool
  ifExists : Bool
  secure : Bool
  pid : Nat
  started : Nat
  respawnCount : Nat
  isDesktop : Bool
  deriving DecidableEq, Repr

/-- A word up to a blank, copied into a buffer for `limit` characters, and what is left. -/
def copyWord (limit : Nat) (p : List UInt8) : List UInt8 × List UInt8 :=
  let word := (p.takeWhile fun c => ¬isBlank c).take limit
  (word, (p.drop word.length).dropWhile isBlank)

def quote : UInt8 := 34

def copyCommand (p : List UInt8) : List UInt8 × List UInt8 :=
  if p.head? = some quote then
    let cmd := ((p.drop 1).takeWhile (· ≠ quote)).take 127
    let rest := (p.drop 1).drop cmd.length
    (cmd, (if rest.head? = some quote then rest.drop 1 else rest).dropWhile isBlank)
  else
    copyWord 127 p

/-- The string in the buffer, behind its blanks. -/
def ttyText (piece : List UInt8) : List UInt8 := (cstr piece).dropWhile isBlank

def isSkipped (p : List UInt8) : Bool := p = [] ∨ p.head? ∈ [some 35, some newline, some 13]

/-- One turn of the loop of `parse_ttys`, for the string in the buffer; device names are cut at `limit` characters. -/
def parseLine (limit : Nat) (piece : List UInt8) : Option Session :=
  if isSkipped (ttyText piece) then none
  else
    let dev := copyWord limit (ttyText piece)
    let cmd := copyCommand dev.2
    let type := copyWord 31 cmd.2
    let status := (type.2.takeWhile fun c => ¬isBlank c ∧ c ≠ newline ∧ c ≠ 13).take 31
    if dev.1 = [] ∨ cmd.1 = [] then none
    else
      some {
        device := dev.1
        command := cmd.1
        type := if type.1 = [] then ascii "xterm-256color" else type.1
        on := status = ascii "on" ∨ status = ascii "onifexists" ∨ status = ascii "onifconsole"
        ifExists := status = ascii "onifexists" ∨ status = ascii "onifconsole"
        secure := ascii "secure" <:+: type.2.drop status.length
        pid := 0
        started := 0
        respawnCount := 0
        isDesktop := false }

def defaultSessions : List Session :=
  [{ device := ascii "serial", command := ascii "/bin/sh", type := ascii "vt100", on := true, ifExists := true,
     secure := true, pid := 0, started := 0, respawnCount := 0, isDesktop := false },
   { device := ascii "console", command := ascii "/bin/sh", type := ascii "xterm-256color", on := true, ifExists := false,
     secure := true, pid := 0, started := 0, respawnCount := 0, isDesktop := false }]

/-- `parse_ttys`: the new sessions are put in front of the list, one after the other. -/
def parseTtys (ttys : Option (List UInt8)) (sessions : List Session) : List Session :=
  match ttys with
  | none => defaultSessions ++ sessions
  | some file => ((readAll file).filterMap (parseLine 63)).reverse ++ sessions

/-- The configured lines of a file: each line as a whole, with the whole name of its device. -/
def configured (file : List UInt8) : List Session := (lines newline file).filterMap fun line => parseLine line.length line

/-! ## Processes -/

/-- The children of `init`: those that run, with the device of their session, and those that have exited and were not
waited for yet, orphans that were adopted among them. -/
structure Children where
  live : List (Nat × List UInt8)
  zombies : List Nat
  deriving DecidableEq, Repr

def Children.Unused (w : Children) (pid : Nat) : Prop := pid ≠ 0 ∧ (∀ child ∈ w.live, child.1 ≠ pid) ∧ pid ∉ w.zombies

instance (w : Children) (pid : Nat) : Decidable (w.Unused pid) := inferInstanceAs (Decidable (_ ∧ _ ∧ _))

/-- What the kernel answers while a session is started: `stat` of the device, `fork`, and the time. -/
structure Answer where
  exist : Bool
  fork : Option Nat
  now : Nat
  deriving DecidableEq, Repr

def startSession (answer : Answer) (sp : Session) (w : Children) : Session × Children :=
  if sp.ifExists ∧ ¬answer.exist then (sp, w)
  else
    match answer.fork.filter fun pid => w.Unused pid with
    | none => (sp, w)
    | some pid =>
      ({ sp with pid := pid, started := answer.now }, { w with live := (pid, sp.device) :: w.live })

def eachSession {σ : Type} (f : σ → Session → Children → Session × Children × σ) :
    σ → List Session → Children → List Session × Children
  | _, [], w => ([], w)
  | st, s :: rest, w =>
    let r := f st s w
    let others := eachSession f r.2.2 rest r.2.1
    (r.1 :: others.1, others.2)

/-- The loop of `state_read_ttys`. Its state is `g_boot_desktop` and the kernel's answers; `startx` tells whether
`startx` can be executed. -/
def startConfigured (startx : Bool) (st : Bool × List Answer) (s : Session) (w : Children) :
    Session × Children × Bool × List Answer :=
  if s.on ∧ s.pid = 0 then
    let desktop : Bool := st.1 ∧ s.device = ascii "console" ∧ startx
    let r := startSession (st.2.headD ⟨false, none, 0⟩) { s with isDesktop := s.isDesktop || desktop } w
    (r.1, r.2, st.1 && !desktop, st.2.tail)
  else (s, w, st)

/-- The loop of `state_clean_ttys`. The signal it sends to the child of a session that is switched off has its effect
later, if any. -/
def startMissing (answers : List Answer) (s : Session) (w : Children) : Session × Children × List Answer :=
  if s.on ∧ s.pid = 0 then
    let r := startSession (answers.headD ⟨false, none, 0⟩) s w
    (r.1, r.2, answers.tail)
  else (s, w, answers)

/-- What `state_multi_user` does with the session of a child that was waited for. The call that blocks also counts
sessions that end too soon; the calls that drain do not. -/
def restart (blocking : Bool) (now : Nat) (answer : Answer) (sp : Session) (w : Children) : Session × Children :=
  let count := if blocking then if now - sp.started < 5 then sp.respawnCount + 1 else 0 else sp.respawnCount
  if sp.isDesktop then startSession answer { sp with pid := 0, respawnCount := 0, isDesktop := false } w
  else
    let ended := { sp with pid := 0, respawnCount := if blocking ∧ 4 ≤ count then 0 else count }
    if sp.on then startSession answer ended w else (ended, w)

/-- `find_session_by_pid`, and what is done with the session found. -/
def onPid (pid : Nat) (f : Session → Children → Session × Children) : List Session → Children → List Session × Children
  | [], w => ([], w)
  | s :: rest, w =>
    if s.pid = pid then
      let r := f s w
      (r.1 :: rest, r.2)
    else
      let others := onPid pid f rest w
      (s :: others.1, others.2)

/-! ## The supervisor -/

structure Supervisor where
  sessions : List Session
  children : Children
  deriving DecidableEq, Repr

inductive Event where
  /-- a child exits -/
  | exit (pid : Nat)
  /-- an adopted orphan exits -/
  | orphan (pid : Nat)
  /-- `waitpid` reports a child, in the call that blocks or in one of those that drain -/
  | reap (blocking : Bool) (pid now : Nat) (answer : Answer)
  /-- `SIGHUP` -/
  | hangup (answers : List Answer)
  deriving DecidableEq, Repr

/-- `state_read_ttys`, with no sessions before. -/
def readTtys (ttys : Option (List UInt8)) (startx bootDesktop : Bool) (answers : List Answer) : Supervisor :=
  let r := eachSession (startConfigured startx) (bootDesktop, answers) (parseTtys ttys []) ⟨[], []⟩
  ⟨r.1, r.2⟩

def cleanTtys (ttys : Option (List UInt8)) (answers : List Answer) (m : Supervisor) : Supervisor :=
  let r := eachSession startMissing answers (parseTtys ttys m.sessions) m.children
  ⟨r.1, r.2⟩

def Supervisor.step (ttys : Option (List UInt8)) (m : Supervisor) : Event → Supervisor
  | .exit pid =>
    if ∃ child ∈ m.children.live, child.1 = pid then
      { m with children := ⟨m.children.live.filter (·.1 ≠ pid), pid :: m.children.zombies⟩ }
    else m
  | .orphan pid =>
    if m.children.Unused pid then { m with children := { m.children with zombies := pid :: m.children.zombies } } else m
  | .reap blocking pid now answer =>
    if pid ∈ m.children.zombies then
      let w := { m.children with zombies := m.children.zombies.filter (· ≠ pid) }
      let r := onPid pid (restart blocking now answer) m.sessions w
      ⟨r.1, r.2⟩
    else m
  | .hangup answers => cleanTtys ttys answers m

def Supervisor.run (ttys : Option (List UInt8)) (m : Supervisor) (events : List Event) : Supervisor :=
  events.foldl (Supervisor.step ttys) m

/-! ## One child per session -/

def Children.Runs (w : Children) (pid : Nat) : Prop := ∃ child ∈ w.live, child.1 = pid

/-- Every child that runs is the one its session names. -/
structure Inv (sessions : List Session) (w : Children) : Prop where
  owned : ∀ child ∈ w.live, ∃ s ∈ sessions, s.pid = child.1 ∧ s.device = child.2
  nonzero : ¬w.Runs 0
  unique : (w.live.map Prod.fst).Nodup
  apart : ∀ pid ∈ w.zombies, ¬w.Runs pid

/-- What can happen to a session whose child is not looked at: nothing; or, once its child does not run any more, it
forgets the child or starts another one. -/
inductive Change (s : Session) (w : Children) : Session → Children → Prop
  | keep {s' : Session} (hdevice : s'.device = s.device) (hpid : s'.pid = s.pid) : Change s w s' w
  | forget {s' : Session} (hdevice : s'.device = s.device) (hgone : ¬w.Runs s.pid) : Change s w s' w
  | start {s' : Session} (hdevice : s'.device = s.device) (hgone : ¬w.Runs s.pid) (hfresh : w.Unused s'.pid) :
      Change s w s' { w with live := (s'.pid, s.device) :: w.live }

variable {s s' : Session} {w w' : Children} {sessions pre post : List Session} {m : Supervisor} {file : List UInt8}

theorem Change.device (h : Change s w s' w') : s'.device = s.device := by
  cases h with
  | keep hdev | forget hdev | start hdev => exact hdev

theorem Inv.change (h : Inv (pre ++ s :: post) w) (hc : Change s w s' w') : Inv (pre ++ s' :: post) w' := by
  -- the sessions of other children are still there
  have hrest : ∀ child ∈ w.live, ¬w.Runs s.pid → ∃ t ∈ pre ++ s' :: post, t.pid = child.1 ∧ t.device = child.2 := by
    intro child hkid hgone
    obtain ⟨t, ht, hpid, hdev⟩ := h.owned child hkid
    have hne : t ≠ s := by
      rintro rfl
      exact hgone ⟨child, hkid, hpid.symm⟩
    refine ⟨t, ?_, hpid, hdev⟩
    rcases mem_append.1 ht with hpre | hpost
    · exact mem_append_left _ hpre
    · exact mem_append_right _ (mem_cons_of_mem _ (mem_of_ne_of_mem hne hpost))
  cases hc with
  | keep hdev hpid =>
    refine ⟨fun child hkid => ?_, h.nonzero, h.unique, h.apart⟩
    obtain ⟨t, ht, htpid, htdevice⟩ := h.owned child hkid
    by_cases heq : t = s
    · subst heq
      exact ⟨s', mem_append_right _ mem_cons_self, hpid.trans htpid, hdev.trans htdevice⟩
    · refine ⟨t, ?_, htpid, htdevice⟩
      rcases mem_append.1 ht with hpre | hpost
      · exact mem_append_left _ hpre
      · exact mem_append_right _ (mem_cons_of_mem _ (mem_of_ne_of_mem heq hpost))
  | forget hdev hgone => exact ⟨fun child hkid => hrest child hkid hgone, h.nonzero, h.unique, h.apart⟩
  | start hdev hgone hfresh =>
    obtain ⟨hzero, hnew, hzom⟩ := hfresh
    refine ⟨fun child hkid => ?_, ?_, ?_, ?_⟩
    · rcases mem_cons.1 hkid with rfl | hold
      · exact ⟨s', mem_append_right _ mem_cons_self, rfl, hdev⟩
      · exact hrest child hold hgone
    · rintro ⟨child, hkid, hpid⟩
      rcases mem_cons.1 hkid with rfl | hold
      · exact hzero hpid
      · exact h.nonzero ⟨child, hold, hpid⟩
    · rw [map_cons, nodup_cons]
      refine ⟨fun hmem => ?_, h.unique⟩
      obtain ⟨child, hkid, hpid⟩ := mem_map.1 hmem
      exact hnew child hkid hpid
    · rintro pid hpid ⟨child, hkid, heq⟩
      rcases mem_cons.1 hkid with rfl | hold
      · have heq' : s'.pid = pid := heq
        exact hzom (heq' ▸ hpid)
      · exact h.apart pid hpid ⟨child, hold, heq⟩

theorem startSession_cases (answer : Answer) (s : Session) (w : Children) :
    startSession answer s w = (s, w) ∨ ∃ pid, w.Unused pid ∧ startSession answer s w =
        ({ s with pid := pid, started := answer.now }, { w with live := (pid, s.device) :: w.live }) := by
  unfold startSession
  split
  · exact .inl rfl
  · split
    case h_1 => exact .inl rfl
    case h_2 pid hfork =>
      have hunused := (Option.filter_eq_some_iff.1 hfork).2
      exact .inr ⟨pid, of_decide_eq_true hunused, rfl⟩

theorem change_startConfigured (startx : Bool) (st : Bool × List Answer) (hzero : ¬w.Runs 0) :
    Change s w (startConfigured startx st s w).1 (startConfigured startx st s w).2.1 := by
  unfold startConfigured
  split
  case isFalse => exact .keep rfl rfl
  case isTrue hoff =>
    have hgone : ¬w.Runs s.pid := hoff.2 ▸ hzero
    dsimp only
    generalize hs' : ({ s with isDesktop := _ } : Session) = s'
    have hdev : s'.device = s.device := hs' ▸ rfl
    have hpid : s'.pid = s.pid := hs' ▸ rfl
    rcases startSession_cases (st.2.headD ⟨false, none, 0⟩) s' w with heq | ⟨pid, hunused, heq⟩
    · rw [heq]
      exact .keep hdev hpid
    · rw [heq, hdev]
      exact .start rfl hgone hunused

theorem change_startMissing (answers : List Answer) (hzero : ¬w.Runs 0) :
    Change s w (startMissing answers s w).1 (startMissing answers s w).2.1 := by
  unfold startMissing
  split
  case isFalse => exact .keep rfl rfl
  case isTrue hoff =>
    have hgone : ¬w.Runs s.pid := hoff.2 ▸ hzero
    rcases startSession_cases (answers.headD ⟨false, none, 0⟩) s w with heq | ⟨pid, hunused, heq⟩
    · rw [heq]
      exact .keep rfl rfl
    · rw [heq]
      exact .start rfl hgone hunused

theorem change_restart (blocking : Bool) (now : Nat) (answer : Answer) (hgone : ¬w.Runs s.pid) :
    Change s w (restart blocking now answer s w).1 (restart blocking now answer s w).2 := by
  have hst0 : ∀ t : Session, t.device = s.device →
      Change s w (startSession answer t w).1 (startSession answer t w).2 := by
    intro t hdev
    rcases startSession_cases answer t w with heq | ⟨pid, hunused, heq⟩
    · rw [heq]
      exact .forget hdev hgone
    · rw [heq, hdev]
      exact .start rfl hgone hunused
  unfold restart
  dsimp only
  split
  · exact hst0 _ rfl
  · split
    · exact hst0 _ rfl
    · exact .forget rfl hgone

theorem Inv.eachSession {σ : Type} {f : σ → Session → Children → Session × Children × σ}
    (hf : ∀ st s w, ¬w.Runs 0 → Change s w (f st s w).1 (f st s w).2.1) (st : σ) (l : List Session)
    (h : Inv (pre ++ l) w) :
    Inv (pre ++ (eachSession f st l w).1) (eachSession f st l w).2 ∧
      (Userland.eachSession f st l w).1.map Session.device = l.map Session.device := by
  induction l generalizing st pre w with
  | nil => exact ⟨h, rfl⟩
  | cons s l ih =>
    have hchange := hf st s w h.nonzero
    have hone := h.change hchange
    rw [append_cons] at hone
    obtain ⟨hrest, hdevs⟩ := ih (f st s w).2.2 hone
    rw [← append_cons] at hrest
    refine ⟨hrest, ?_⟩
    rw [Userland.eachSession, map_cons, map_cons, hdevs, hchange.device]

theorem Inv.onPid {pid : Nat} {f : Session → Children → Session × Children}
    (hf : ∀ s, s.pid = pid → Change s w (f s w).1 (f s w).2) (l : List Session) (h : Inv (pre ++ l) w) :
    Inv (pre ++ (onPid pid f l w).1) (onPid pid f l w).2 ∧
      (Userland.onPid pid f l w).1.map Session.device = l.map Session.device := by
  induction l generalizing pre with
  | nil => exact ⟨h, rfl⟩
  | cons s l ih =>
    rw [Userland.onPid]
    split
    case isTrue hpid =>
      refine ⟨h.change (hf s hpid), ?_⟩
      rw [map_cons, map_cons, (hf s hpid).device]
    case isFalse =>
      rw [append_cons] at h
      obtain ⟨hrest, hdevs⟩ := ih h
      rw [← append_cons] at hrest
      refine ⟨hrest, ?_⟩
      rw [map_cons, map_cons, hdevs]

/-! ## One session per line -/

/-- A file whose lines fit into the buffer, and whose device names fit into theirs. -/
structure Readable (file : List UInt8) : Prop where
  lines : ∀ line ∈ lines newline file, line.length ≤ 255
  devices : ∀ line ∈ Lib.lines newline file, isSkipped (ttyText line) = true ∨
    ((ttyText line).takeWhile fun c => ¬isBlank c).length ≤ 63

theorem length_ttyText_le (line : List UInt8) : (ttyText line).length ≤ line.length :=
  Nat.le_trans (dropWhile_suffix _).length_le (List.takeWhile_prefix _).length_le

theorem parseLine_of_short {line : List UInt8} (h : isSkipped (ttyText line) = true ∨
    ((ttyText line).takeWhile fun c => ¬isBlank c).length ≤ 63) : parseLine 63 line = parseLine line.length line := by
  unfold parseLine
  rcases h with hskipped | hfits
  · rw [if_pos hskipped, if_pos hskipped]
  · have hlong : ((ttyText line).takeWhile fun c => ¬isBlank c).length ≤ line.length :=
      Nat.le_trans (List.takeWhile_prefix _).length_le (length_ttyText_le line)
    have hcopy : copyWord 63 (ttyText line) = copyWord line.length (ttyText line) := by
      unfold copyWord
      rw [take_of_length_le hfits, take_of_length_le hlong]
    rw [hcopy]

theorem Readable.parse_eq (h : Readable file) : (readAll file).filterMap (parseLine 63) = configured file := by
  rw [readAll_eq_lines h.lines, configured]
  refine filterMap_congr fun line hline => ?_
  exact parseLine_of_short (h.devices line hline)

theorem inv_parsed (sessions : List Session) : Inv ([] ++ sessions) ⟨[], []⟩ :=
  ⟨fun _ hkid => absurd hkid not_mem_nil, fun ⟨_, hkid, _⟩ => absurd hkid not_mem_nil, nodup_nil,
    fun _ _ ⟨_, hkid, _⟩ => absurd hkid not_mem_nil⟩

/-- What holds in multi-user mode as long as nothing is read twice. -/
structure Supervised (file : List UInt8) (m : Supervisor) : Prop where
  devices : m.sessions.map Session.device = ((configured file).map Session.device).reverse
  inv : Inv m.sessions m.children

theorem supervised_readTtys (h : Readable file) (startx bootDesktop : Bool) (answers : List Answer) :
    Supervised file (readTtys (some file) startx bootDesktop answers) := by
  have hparsed : parseTtys (some file) [] = (configured file).reverse := by
    rw [parseTtys, h.parse_eq, append_nil]
  obtain ⟨hinv, hdevs⟩ := (inv_parsed (parseTtys (some file) [])).eachSession
    (fun st s w => change_startConfigured startx st) (bootDesktop, answers) (parseTtys (some file) [])
  refine ⟨?_, hinv⟩
  rw [readTtys, hdevs, hparsed, map_reverse]

theorem Inv.exit (h : Inv sessions w) (pid : Nat) : Inv sessions ⟨w.live.filter (·.1 ≠ pid), pid :: w.zombies⟩ := by
  have hold : ∀ {p}, Children.Runs ⟨w.live.filter (·.1 ≠ pid), pid :: w.zombies⟩ p → w.Runs p ∧ p ≠ pid := by
    rintro p ⟨child, hkid, hp⟩
    obtain ⟨hmem, hne⟩ := mem_filter.1 hkid
    exact ⟨⟨child, hmem, hp⟩, hp ▸ of_decide_eq_true hne⟩
  refine ⟨fun child hkid => h.owned child (mem_filter.1 hkid).1, fun hzero => h.nonzero (hold hzero).1, ?_, ?_⟩
  · exact h.unique.sublist (filter_sublist.map Prod.fst)
  · intro p hp hruns
    rcases mem_cons.1 hp with rfl | hp
    · exact (hold hruns).2 rfl
    · exact h.apart p hp (hold hruns).1

theorem Supervised.step (h : Supervised file m) (hfile : Readable file) {event : Event}
    (hcalm : (∃ answers, event = .hangup answers) → configured file = []) :
    Supervised file (m.step (some file) event) := by
  cases event with
  | exit pid =>
    rw [Supervisor.step]
    split
    · exact ⟨h.devices, h.inv.exit pid⟩
    · exact h
  | orphan pid =>
    rw [Supervisor.step]
    split
    case isTrue hunused =>
      refine ⟨h.devices, h.inv.owned, h.inv.nonzero, h.inv.unique, fun p hp hruns => ?_⟩
      rcases mem_cons.1 hp with rfl | hp
      · obtain ⟨child, hkid, heq⟩ := hruns
        exact hunused.2.1 child hkid heq
      · exact h.inv.apart p hp hruns
    case isFalse => exact h
  | reap blocking pid now answer =>
    rw [Supervisor.step]
    split
    case isTrue hzom =>
      have hgone : ¬m.children.Runs pid := h.inv.apart pid hzom
      have hreaped : Inv ([] ++ m.sessions) { m.children with zombies := m.children.zombies.filter (· ≠ pid) } :=
        ⟨h.inv.owned, h.inv.nonzero, h.inv.unique, fun p hp => h.inv.apart p (mem_filter.1 hp).1⟩
      obtain ⟨hinv, hdevs⟩ := hreaped.onPid
        (fun s hpid => change_restart blocking now answer (hpid ▸ hgone)) m.sessions
      exact ⟨hdevs.trans h.devices, hinv⟩
    case isFalse => exact h
  | hangup answers =>
    have hnone := hcalm ⟨answers, rfl⟩
    have hparsed : parseTtys (some file) m.sessions = m.sessions := by
      rw [parseTtys, hfile.parse_eq, hnone, reverse_nil, nil_append]
    have hbef : Inv ([] ++ m.sessions) m.children := h.inv
    obtain ⟨hinv, hdevs⟩ := hbef.eachSession (fun answers s w => change_startMissing answers) answers m.sessions
    rw [Supervisor.step, cleanTtys, hparsed]
    exact ⟨hdevs.trans h.devices, hinv⟩

theorem Supervised.run (h : Supervised file m) (hfile : Readable file) (events : List Event)
    (hcalm : (∃ answers, .hangup answers ∈ events) → configured file = []) :
    Supervised file (m.run (some file) events) := by
  induction events generalizing m with
  | nil => exact h
  | cons event events ih =>
    refine ih (h.step hfile ?_) fun ⟨answers, hmem⟩ => hcalm ⟨answers, mem_cons_of_mem _ hmem⟩
    rintro ⟨answers, rfl⟩
    exact hcalm ⟨answers, mem_cons_self⟩

theorem Inv.live_unique (h : Inv sessions w) (hdevs : (sessions.map Session.device).Nodup) (device : List UInt8) :
    (w.live.filter fun child => child.2 = device).length ≤ 1 := by
  have hpid : ∀ a ∈ w.live.filter (fun child => child.2 = device), ∀ b ∈ w.live.filter (fun child => child.2 = device),
      a = b := by
    intro a ha b hb
    obtain ⟨ha, hadevice⟩ := mem_filter.1 ha
    obtain ⟨hb, hbdevice⟩ := mem_filter.1 hb
    obtain ⟨s, hs, hspid, hsdevice⟩ := h.owned a ha
    obtain ⟨t, ht, htpid, htdevice⟩ := h.owned b hb
    have hadevice' : a.2 = device := of_decide_eq_true hadevice
    have hbdevice' : b.2 = device := of_decide_eq_true hbdevice
    have hst : s = t := inj_on_of_nodup_map hdevs hs ht (by rw [hsdevice, htdevice, hadevice', hbdevice'])
    refine Prod.ext ?_ (hadevice'.trans hbdevice'.symm)
    rw [← hspid, ← htpid, hst]
  have hnd : (w.live.filter fun child => child.2 = device).Nodup := (Nodup.of_map _ h.unique).filter _
  generalize w.live.filter (fun child => child.2 = device) = l at hpid hnd
  match l with
  | [] => exact Nat.zero_le 1
  | [_] => exact Nat.le_refl 1
  | a :: b :: _ =>
    have hab := hpid a mem_cons_self b (mem_cons_of_mem _ mem_cons_self)
    exact absurd (hab ▸ mem_cons_self) (nodup_cons.1 hnd).1

/-- **One session per line.** For every file whose lines and device names fit into the buffers and that names each
device once, and every sequence of events without `SIGHUP` while the file has a configured line: there is one session
for each configured line, and at most one child runs on a device. -/
theorem one_session_per_line (file : List UInt8) (hunique : ((configured file).map Session.device).Nodup)
    (hfile : Readable file) (startx bootDesktop : Bool) (answers : List Answer) (events : List Event)
    (hcalm : (∃ answers, .hangup answers ∈ events) → configured file = []) :
    ((readTtys (some file) startx bootDesktop answers).run (some file) events).sessions.map Session.device =
        ((configured file).map Session.device).reverse ∧
      ∀ device, (((readTtys (some file) startx bootDesktop answers).run (some file) events).children.live.filter
        fun child => child.2 = device).length ≤ 1 := by
  have hend := (supervised_readTtys hfile startx bootDesktop answers).run hfile events hcalm
  refine ⟨hend.devices, hend.inv.live_unique ?_⟩
  rw [hend.devices]
  exact List.nodup_reverse.2 hunique

def oneLine : List UInt8 := ascii "tty1 /bin/sh vt100 on" ++ [newline]

/-- The child of the line exits and is started again. -/
theorem one_session_oneLine : (((readTtys (some oneLine) false false [⟨true, some 10, 0⟩]).run (some oneLine)
        [.exit 10, .reap true 10 9 ⟨true, some 11, 9⟩]).sessions.map Session.device =
      ((configured oneLine).map Session.device).reverse) ∧
    ∀ device, (((readTtys (some oneLine) false false [⟨true, some 10, 0⟩]).run (some oneLine)
      [.exit 10, .reap true 10 9 ⟨true, some 11, 9⟩]).children.live.filter fun child => child.2 = device).length ≤ 1 := by
  refine one_session_per_line oneLine (by decide +kernel) ⟨by decide +kernel, by decide +kernel⟩ false false _ _ ?_
  rintro ⟨answers, hmem⟩
  rcases List.mem_cons.1 hmem with heq | hmem
  · cases heq
  · cases List.mem_singleton.1 hmem

/-- A reload gives the line a second session and its device a second child. -/
theorem reload_doubles :
    ∃ m, (readTtys (some oneLine) false false [⟨true, some 10, 0⟩]).run (some oneLine) [.hangup [⟨true, some 11, 5⟩]] = m ∧
      m.sessions.map Session.device = [ascii "tty1", ascii "tty1"] ∧
      (configured oneLine).map Session.device = [ascii "tty1"] ∧
      m.children.live = [(11, ascii "tty1"), (10, ascii "tty1")] :=
  ⟨_, rfl, by decide +kernel, by decide +kernel, by decide +kernel⟩

end SzpontOS.Userland
