import Mathlib.Algebra.BigOperators.Fin
import Mathlib.Algebra.Order.BigOperators.Group.Finset
import Nflambda.Base.Transition
import Nflambda.Runtime.Conn
import Nflambda.Deploy.RoundTrip

/-!
# Sessions of directors

Library `Deploy`. Several directors, `NFlambda` of `src/director/nflambda/platform.py:47–93`, are
connected to one runtime, `src/runtime/conn.c:143–252` and `288–321`. Bytes travel in pieces of any
length and the runtime reads the sockets in any order. All clients share the buffer of the line
that is being read, `msg_in`.
-/

namespace Nflambda.Deploy

open Nflambda.Base Nflambda.Runtime Nflambda.Director

variable {H ι : Type}

/-- What the director's side of a connection is doing. -/
inductive Phase where
  /-- `__init__` waits for the welcome. -/
  | connecting
  /-- No call is active. -/
  | idle
  /-- `send_command` sends, and then waits for the answer. -/
  | waiting
  deriving DecidableEq, Repr

/-- A director and its connection: `sending` is what `sendall` has not passed on, `input` is on the
way to the runtime and `output` on the way back. -/
structure Peer where
  phase : Phase
  accepted : Bool
  /-- The commands of the calls that are still to come. -/
  commands : List Command
  sending : List Char
  input : List Char
  output : List Char
  /-- What the calls of `send_command` have returned. -/
  answers : List (List Char)
  deriving DecidableEq, Repr

/-- The runtime and the directors. -/
structure Session (ι H : Type) where
  config : Config H
  msgIn : List Char
  /-- The client that was read last; no code looks at it. -/
  reader : Option ι
  peers : ι → Peer

/-- What happens next. -/
inductive Session.Event (ι : Type) where
  /-- `conn_poll_for_conn` accepts a client. -/
  | accept (i : ι)
  /-- `send_command` is called. -/
  | call (i : ι)
  /-- Bytes of a command reach the socket of the runtime. -/
  | transmit (i : ι) (n : Nat)
  /-- `conn_poll_for_msg` finds the socket of a client readable. -/
  | poll (i : ι)
  /-- `recv(1024)` returns. -/
  | recv (i : ι) (n : Nat)
  deriving DecidableEq, Repr

namespace Session

variable [DecidableEq ι]

/-- Replace one client. -/
def setPeer (s : Session ι H) (i : ι) (p : Peer) : Session ι H :=
  { s with peers := Function.update s.peers i p }

/-- `conn_poll_for_conn`, `conn.c:143–199`, `conn_poll_for_msg`, `conn.c:288–321`, for a client that
has data, and `__init__` and `send_command` of `platform.py:47–74`. -/
def step (dump : Config H → List Char → List Char) (s : Session ι H) :
    Event ι → Option (Session ι H)
  | .accept i =>
    let p := s.peers i
    if p.accepted then none
    else some (s.setPeer i { p with accepted := true, output := p.output ++ welcome ++ prompt })
  | .call i =>
    let p := s.peers i
    match p.phase, p.commands with
    | .idle, x :: commands =>
      some (s.setPeer i { p with phase := .waiting, commands, sending := x.apply.toList })
    | _, _ => none
  | .transmit i n =>
    let p := s.peers i
    if 0 < n ∧ n ≤ p.sending.length then
      some (s.setPeer i
        { p with sending := p.sending.drop n, input := p.input ++ p.sending.take n })
    else none
  | .poll i =>
    let p := s.peers i
    if p.accepted = true ∧ p.input ≠ [] then
      match dataEvent dump (s.config, s.msgIn) (p.input.take BUF_SIZE) with
      | .ok ((config, msgIn), out) =>
        some { s.setPeer i { p with input := p.input.drop BUF_SIZE, output := p.output ++ out } with
          config, msgIn, reader := some i }
      -- the process is gone
      | .error _ => none
    else none
  | .recv i n =>
    let p := s.peers i
    if 0 < n ∧ n ≤ p.output.length ∧ n ≤ 1024 ∧ p.sending = [] then
      match p.phase with
      | .connecting => some (s.setPeer i { p with phase := .idle, output := p.output.drop n })
      | .waiting => some (s.setPeer i
          { p with phase := .idle, output := p.output.drop n,
                   answers := p.answers ++ [p.output.take n] })
      | .idle => none
    else none

/-- Directors that connect to a runtime, each with the commands that it will send. -/
def start (c : Config H) (clients : ι → List Command) : Session ι H where
  config := c
  msgIn := []
  reader := none
  peers i :=
    { phase := .connecting, accepted := false, commands := clients i, sending := [], input := [],
      output := [], answers := [] }

/-- A client is read only where no line of another one has been read in part. -/
def InTurn (s : Session ι H) : Event ι → Prop
  | .poll i => s.msgIn = [] ∨ s.reader = some i
  | _ => True

/-- `recv` returns all that has been written. -/
def AtOnce (s : Session ι H) : Event ι → Prop
  | .recv i n => n = (s.peers i).output.length
  | _ => True

instance decidableInTurn (s : Session ι H) : (e : Event ι) → Decidable (s.InTurn e)
  | .poll i => inferInstanceAs (Decidable (s.msgIn = [] ∨ s.reader = some i))
  | .accept _ | .call _ | .transmit _ _ | .recv _ _ => isTrue trivial

instance decidableAtOnce (s : Session ι H) : (e : Event ι) → Decidable (s.AtOnce e)
  | .recv i n => inferInstanceAs (Decidable (n = (s.peers i).output.length))
  | .accept _ | .call _ | .transmit _ _ | .poll _ => isTrue trivial

end Session

/-! ### Commands as frames -/

/-- The text of a command without the end of the line. -/
def commandLine (x : Command) : List Char :=
  joinWords ' ' x.command.toList (x.argumentList.map String.toList)

/-- What one command does, and what is written for it. -/
def execute (dump : Config H → List Char → List Char) (c : Config H) (x : Command) :
    Except Fault (Config H × List Char) :=
  msgHandle dump c (commandLine x)

/-- The text of a command is one line that the buffer holds. -/
def OneLine (x : Command) : Prop := LineFits (commandLine x)

variable (dump : Config H → List Char → List Char)

private theorem framed_commands :
    Framed (readByte dump) (execute dump) (fun c p ↦ (c, p)) (fun x ↦ x.apply.toList)
      OneLine := by
  have h := (framed_lines dump).comap commandLine
  simp only [← Command.toList_apply, commandLine] at h
  exact h

/-- Sending a command is executing it. -/
theorem sendCommand_eq_execute (c : Config H) {x : Command} (h : OneLine x) :
    sendCommand c x = (execute dump c x).map Prod.fst := by
  rw [sendCommand, ← feed_readByte dump, (framed_commands dump).whole c x h]
  cases execute dump c x with
  | error e => rfl
  | ok r => rfl

/-- Commands that are executed one after the other. -/
theorem sendCommands_eq_runAll (c : Config H) {xs : List Command} (h : ∀ x ∈ xs, OneLine x) :
    sendCommands c xs = (runAll (execute dump) c xs).map Prod.fst := by
  induction xs generalizing c with
  | nil => rfl
  | cons x xs ih =>
    rw [sendCommands_cons, sendCommand_eq_execute dump c (h x List.mem_cons_self), runAll]
    cases execute dump c x with
    | error e => rfl
    | ok r =>
      show sendCommands r.1 xs = _
      rw [ih r.1 fun y hy ↦ h y (List.mem_cons_of_mem x hy)]
      show _ = ((runAll (execute dump) r.1 xs).map _).map Prod.fst
      cases runAll (execute dump) r.1 xs with
      | error e => rfl
      | ok q => rfl

namespace Session

variable [DecidableEq ι] {c : Config H} {clients : ι → List Command} {s t : Session ι H}

@[simp] theorem peers_setPeer_self (s : Session ι H) (i : ι) (p : Peer) :
    (s.setPeer i p).peers i = p := Function.update_self ..

theorem peers_setPeer_of_ne (s : Session ι H) {i j : ι} (h : j ≠ i) (p : Peer) :
    (s.setPeer i p).peers j = s.peers j := Function.update_of_ne h ..

/-- What each event needs and what it does. -/
inductive Took (s : Session ι H) : Event ι → Session ι H → Prop
  | accept (i : ι) (hnew : (s.peers i).accepted = false) :
    Took s (.accept i) (s.setPeer i { s.peers i with
      accepted := true, output := (s.peers i).output ++ welcome })
  | call (i : ι) (x : Command) (rest : List Command) (hphase : (s.peers i).phase = .idle)
    (hcommands : (s.peers i).commands = x :: rest) :
    Took s (.call i) (s.setPeer i { s.peers i with
      phase := .waiting, commands := rest, sending := x.apply.toList })
  | transmit (i : ι) (n : Nat) (hpos : 0 < n) (hle : n ≤ (s.peers i).sending.length) :
    Took s (.transmit i n) (s.setPeer i { s.peers i with
      sending := (s.peers i).sending.drop n
      input := (s.peers i).input ++ (s.peers i).sending.take n })
  | poll (i : ι) (haccepted : (s.peers i).accepted = true) (hinput : (s.peers i).input ≠ [])
    (r : (Config H × List Char) × List Char)
    (hread : feed (readByte dump) (s.config, s.msgIn) ((s.peers i).input.take BUF_SIZE) = .ok r) :
    Took s (.poll i) { s.setPeer i { s.peers i with
        input := (s.peers i).input.drop BUF_SIZE, output := (s.peers i).output ++ r.2 } with
      config := r.1.1, msgIn := r.1.2, reader := some i }
  | connected (i : ι) (n : Nat) (hpos : 0 < n) (hle : n ≤ (s.peers i).output.length)
    (hsent : (s.peers i).sending = []) (hphase : (s.peers i).phase = .connecting) :
    Took s (.recv i n) (s.setPeer i { s.peers i with
      phase := .idle, output := (s.peers i).output.drop n })
  | answered (i : ι) (n : Nat) (hpos : 0 < n) (hle : n ≤ (s.peers i).output.length)
    (hsent : (s.peers i).sending = []) (hphase : (s.peers i).phase = .waiting) :
    Took s (.recv i n) (s.setPeer i { s.peers i with
      phase := .idle, output := (s.peers i).output.drop n
      answers := (s.peers i).answers ++ [(s.peers i).output.take n] })

variable {dump} in
/-- A step is one of these. -/
theorem took_of_step {e : Event ι} (h : step dump s e = some t) : Took dump s e t := by
  cases e with
  | accept i =>
    dsimp only [step] at h
    split at h
    · cases h
    · next hnew =>
      cases h
      have ht : Took dump s (.accept i) _ := .accept i (Bool.eq_false_of_not_eq_true hnew)
      rwa [← List.append_nil ((s.peers i).output ++ welcome)] at ht
  | call i =>
    dsimp only [step] at h
    split at h
    · next x rest hphase hcommands =>
      cases h
      exact .call i x rest hphase hcommands
    · cases h
  | transmit i n =>
    dsimp only [step] at h
    split at h
    · next hn =>
      cases h
      exact .transmit i n hn.1 hn.2
    · cases h
  | poll i =>
    dsimp only [step] at h
    split at h
    · next hready =>
      rw [dataEvent] at h
      cases hread : feed (readByte dump) (s.config, s.msgIn)
          ((s.peers i).input.take BUF_SIZE) with
      | error e =>
        rw [hread] at h
        cases h
      | ok r =>
        rw [hread] at h
        cases h
        have ht : Took dump s (.poll i) _ := .poll i hready.1 hready.2 r hread
        rwa [← List.append_nil r.2] at ht
    · cases h
  | recv i n =>
    dsimp only [step] at h
    split at h
    · next hn =>
      obtain ⟨hpos, hle, -, hsent⟩ := hn
      split at h
      · next hphase =>
        cases h
        exact .connected i n hpos hle hsent hphase
      · next hphase =>
        cases h
        exact .answered i n hpos hle hsent hphase
      · cases h
    · cases h

/-! ### What is on the way -/

/-- The part of a line that was read from a client and is kept in `msg_in`. -/
def held (s : Session ι H) (i : ι) : List Char := if s.reader = some i then s.msgIn else []

@[simp] theorem held_setPeer (s : Session ι H) (i j : ι) (p : Peer) :
    (s.setPeer i p).held j = s.held j := rfl

end Session

/-- Of the commands `mine` of a client, `done` have been executed and `pending` have been sent and
not executed. -/
structure Peer.Owes (p : Peer) (mine done pending : List Command) (held : List Char) : Prop where
  sent : done ++ (pending ++ p.commands) = mine
  stream : pending.flatMap (fun x ↦ x.apply.toList) = held ++ (p.input ++ p.sending)
  partly : Partly (fun x : Command ↦ x.apply.toList) pending held
  quiet : p.phase ≠ .waiting → p.sending = []

/-- What a client owes is the commands it has and the bytes on the way. -/
theorem Peer.Owes.congr {p q : Peer} {mine done pending : List Command} {held : List Char}
    (h : p.Owes mine done pending held) (hcommands : q.commands = p.commands)
    (hway : q.input ++ q.sending = p.input ++ p.sending)
    (hquiet : q.phase ≠ .waiting → q.sending = []) : q.Owes mine done pending held where
  sent := by rw [hcommands, h.sent]
  stream := by rw [hway, h.stream]
  partly := h.partly
  quiet := hquiet

/-- A call of `send_command` makes one more command pending. -/
theorem Peer.Owes.call {p : Peer} {mine done pending : List Command} {held : List Char}
    (h : p.Owes mine done pending held) {x : Command} {rest : List Command}
    (hphase : p.phase = .idle) (hcommands : p.commands = x :: rest) :
    Peer.Owes { p with phase := .waiting, commands := rest, sending := x.apply.toList } mine done
      (pending ++ [x]) held where
  sent := by
    rw [← h.sent, hcommands, List.append_assoc]
    rfl
  stream := by
    have hquiet : p.sending = [] := h.quiet (by rw [hphase]; decide)
    rw [List.flatMap_append, h.stream, hquiet, List.flatMap_singleton, List.append_nil,
      List.append_assoc]
  partly y hy := by
    cases hpend : pending with
    | nil =>
      have hstream := h.stream
      rw [hpend, List.flatMap_nil, List.nil_eq_append_iff] at hstream
      show held.length < y.apply.toList.length
      rw [hstream.1, Command.toList_apply y, List.length_append, List.length_nil]
      exact Nat.lt_add_left _ Nat.one_pos
    | cons z zs =>
      apply h.partly y
      rw [hpend] at hy ⊢
      exact hy
  quiet hne := absurd rfl hne

namespace Session

variable [DecidableEq ι] {c : Config H} {clients : ι → List Command} {s t : Session ι H}
  {order : List (ι × Command)} {answers : List (List Char)} {pending : ι → List Command}

/-- The commands in `order` have been executed in this order, with these answers; of each client,
the ones in `pending` have been sent as well. -/
structure Serial (c : Config H) (clients : ι → List Command) (s : Session ι H)
    (order : List (ι × Command)) (answers : List (List Char)) (pending : ι → List Command) :
    Prop where
  executed : runAll (execute dump) c (order.map Prod.snd) = .ok (s.config, answers)
  owes : ∀ i, (s.peers i).Owes (clients i) (shareOf i order) (pending i) (s.held i)
  fresh : s.reader = none → s.msgIn = []

theorem serial_start (c : Config H) (clients : ι → List Command) :
    Serial dump c clients (start c clients) [] [] fun _ ↦ [] where
  executed := rfl
  owes _ := ⟨rfl, rfl, (fun _ h ↦ nomatch h), fun _ ↦ rfl⟩
  fresh _ := rfl

variable {dump}

/-- A client that owes something else than before. -/
theorem Serial.setPeer (h : Serial dump c clients s order answers pending) {i : ι} {p : Peer}
    {own : List Command}
    (hp : p.Owes (clients i) (shareOf i order) own (s.held i)) :
    Serial dump c clients (s.setPeer i p) order answers (Function.update pending i own) where
  executed := h.executed
  owes j := by
    by_cases hj : j = i
    · subst hj
      rw [peers_setPeer_self, Function.update_self]
      exact hp
    · rw [peers_setPeer_of_ne s hj, Function.update_of_ne hj]
      exact h.owes j
  fresh := h.fresh

theorem Serial.held_of_inTurn {i : ι} (hturn : InTurn s (.poll i)) : s.held i = s.msgIn := by
  by_cases hr : s.reader = some i
  · exact if_pos hr
  · rw [held, if_neg hr, hturn.resolve_right hr]

/-- No other client has a line in the buffer. -/
theorem Serial.held_of_ne {i j : ι} (hturn : InTurn s (.poll i)) (hj : j ≠ i) :
    s.held j = [] := by
  by_cases hr : s.reader = some j
  · have hne : s.reader ≠ some i := by
      rw [hr, ne_eq, Option.some.injEq]
      exact hj
    rw [held, if_pos hr, hturn.resolve_right hne]
  · exact if_neg hr

theorem Serial.fits (h : Serial dump c clients s order answers pending)
    (hfits : ∀ i, ∀ x ∈ clients i, OneLine x) (i : ι) : ∀ x ∈ pending i, OneLine x := by
  intro x hx
  apply hfits i x
  rw [← (h.owes i).sent]
  exact List.mem_append_right _ (List.mem_append_left _ hx)

/-- What a read of a client finds: the rest of some pending commands, and a part of the next. -/
theorem Serial.piece (h : Serial dump c clients s order answers pending)
    (hfits : ∀ i, ∀ x ∈ clients i, OneLine x) {i : ι} (hturn : InTurn s (.poll i)) :
    ∃ done rest msgIn, pending i = done ++ rest ∧
      rest.flatMap (fun x ↦ x.apply.toList) =
        msgIn ++ ((s.peers i).input.drop BUF_SIZE ++ (s.peers i).sending) ∧
      Partly (fun x : Command ↦ x.apply.toList) rest msgIn ∧
      feed (readByte dump) (s.config, s.msgIn) ((s.peers i).input.take BUF_SIZE) =
        (runAll (execute dump) s.config done).map fun q ↦ ((q.1, msgIn), q.2.flatten) := by
  have hstream := (h.owes i).stream
  have hpartly := (h.owes i).partly
  rw [Serial.held_of_inTurn hturn] at hstream hpartly
  rw [← List.take_append_drop BUF_SIZE (s.peers i).input, List.append_assoc] at hstream
  exact (framed_commands dump).feed_piece (h.fits hfits i) hstream hpartly

/-- A read of a client executes the commands that it completes. -/
theorem Serial.poll (h : Serial dump c clients s order answers pending)
    (hfits : ∀ i, ∀ x ∈ clients i, OneLine x) {i : ι} (hturn : InTurn s (.poll i))
    {r : (Config H × List Char) × List Char}
    (hread : feed (readByte dump) (s.config, s.msgIn) ((s.peers i).input.take BUF_SIZE) = .ok r) :
    ∃ done rest new,
      pending i = done ++ rest ∧ runAll (execute dump) s.config done = .ok (r.1.1, new) ∧
      r.2 = new.flatten ∧
      ∀ out, Serial dump c clients
        { s.setPeer i { s.peers i with
            input := (s.peers i).input.drop BUF_SIZE, output := out } with
          config := r.1.1, msgIn := r.1.2, reader := some i }
        (order ++ done.map (Prod.mk i)) (answers ++ new) (Function.update pending i rest) := by
  have howes := h.owes i
  obtain ⟨done, rest, msgIn, hsplit, hrest, hpartly', hfeed⟩ := h.piece hfits hturn
  rw [hfeed] at hread
  cases hall : runAll (execute dump) s.config done with
  | error e =>
    rw [hall] at hread
    cases hread
  | ok q =>
    rw [hall] at hread
    cases hread
    refine ⟨done, rest, q.2, hsplit, hall, rfl, fun out ↦ ⟨?_, fun j ↦ ?_, fun hr ↦ nomatch hr⟩⟩
    · rw [List.map_append, List.map_map, runAll_append, h.executed]
      show (runAll (execute dump) s.config (done.map id)).map _ = _
      rw [List.map_id, hall]
      rfl
    · show (Function.update s.peers i _ j).Owes _ _ _ _
      by_cases hj : j = i
      · subst hj
        rw [Function.update_self, Function.update_self, shareOf_append, shareOf_map_self, held,
          if_pos rfl]
        refine ⟨?_, hrest, hpartly', howes.quiet⟩
        rw [← howes.sent, hsplit]
        simp only [List.append_assoc]
      · have hreader : ¬some i = some j := fun he ↦ hj (Option.some.inj he).symm
        have howes' := h.owes j
        rw [Serial.held_of_ne hturn hj] at howes'
        rw [Function.update_of_ne hj, Function.update_of_ne hj, shareOf_append,
          shareOf_map_of_ne (Ne.symm hj), List.append_nil, held, if_neg hreader]
        exact howes'

/-- A client that only receives, or whose bytes move on. -/
theorem Serial.same (h : Serial dump c clients s order answers pending) {i : ι} {p : Peer}
    (hcommands : p.commands = (s.peers i).commands)
    (hway : p.input ++ p.sending = (s.peers i).input ++ (s.peers i).sending)
    (hquiet : p.phase ≠ .waiting → p.sending = []) :
    Serial dump c clients (s.setPeer i p) order answers pending := by
  have hs := h.setPeer ((h.owes i).congr hcommands hway hquiet)
  rwa [Function.update_eq_self] at hs

/-- Every step keeps the order of what has been executed and executes some of what is pending. -/
theorem serial_step (hfits : ∀ i, ∀ x ∈ clients i, OneLine x) {e : Event ι}
    (h : ∃ order answers pending, Serial dump c clients s order answers pending)
    (hturn : InTurn s e) (hstep : step dump s e = some t) :
    ∃ order answers pending, Serial dump c clients t order answers pending := by
  obtain ⟨order, answers, pending, h⟩ := h
  cases took_of_step hstep with
  | accept i hnew => exact ⟨_, _, _, h.same rfl rfl (h.owes i).quiet⟩
  | call i x rest hphase hcommands => exact ⟨_, _, _, h.setPeer ((h.owes i).call hphase hcommands)⟩
  | transmit i n hpos hle =>
    refine ⟨_, _, _, h.same rfl ?_ fun hne ↦ ?_⟩
    · rw [List.append_assoc, List.take_append_drop]
    · rw [(h.owes i).quiet hne, List.drop_nil]
  | poll i haccepted hinput r hread =>
    obtain ⟨done, rest, new, -, -, -, hs⟩ := h.poll hfits hturn hread
    exact ⟨_, _, _, hs _⟩
  | connected i n hpos hle hsent hphase => exact ⟨_, _, _, h.same rfl rfl fun _ ↦ hsent⟩
  | answered i n hpos hle hsent hphase => exact ⟨_, _, _, h.same rfl rfl fun _ ↦ hsent⟩

end Session

/-- Whatever is read when and in what pieces: as long as no client is read in the middle of a line
of another one, the configuration is the one that some order of the commands leads to, in which
each client's commands come in its own order and each at most once. What a client has sent is in
that order as soon as nothing of it is on the way. -/
theorem sessions_serial [DecidableEq ι] (clients : ι → List Command)
    (hfits : ∀ i, ∀ x ∈ clients i, OneLine x) (c : Config H) {es : List (Session.Event ι)}
    {s : Session ι H} (hrun : run (Session.step dump) (Session.start c clients) es = some s)
    (hturn : Along (Session.step dump) Session.InTurn (Session.start c clients) es) :
    ∃ order : List (ι × Command),
      sendCommands c (order.map Prod.snd) = .ok s.config ∧
      ∀ i, shareOf i order <+: clients i ∧
        (s.msgIn = [] → (s.peers i).input = [] → (s.peers i).sending = [] →
          shareOf i order ++ (s.peers i).commands = clients i) := by
  have hinv := run_invariant_along (P := fun s ↦ ∃ order answers pending,
      Session.Serial dump c clients s order answers pending)
    (fun s e t h hq hstep ↦ Session.serial_step hfits h hq hstep)
    ⟨_, _, _, Session.serial_start dump c clients⟩ hturn hrun
  obtain ⟨order, answers, pending, h⟩ := hinv
  have hmem : ∀ x ∈ order.map Prod.snd, OneLine x := by
    intro x hx
    obtain ⟨⟨i, y⟩, hy, rfl⟩ := List.mem_map.mp hx
    apply hfits i y
    rw [← (h.owes i).sent]
    exact List.mem_append_left _ (mem_shareOf.mpr hy)
  refine ⟨order, ?_, fun i ↦ ⟨⟨_, (h.owes i).sent⟩, fun hmsg hinput hsending ↦ ?_⟩⟩
  · rw [sendCommands_eq_runAll dump c hmem, h.executed]
    rfl
  · have hheld : s.held i = [] := by
      rw [Session.held, hmsg, ite_self]
    have howes := h.owes i
    have hstream := howes.stream
    rw [hheld, hinput, hsending] at hstream
    have hnone : pending i = [] := by
      cases hpend : pending i with
      | nil => rfl
      | cons x rest =>
        rw [hpend, List.flatMap_cons, Command.toList_apply] at hstream
        simp at hstream
    rw [← howes.sent, hnone, List.nil_append]

/-- Two clients that ask for the number of functions. -/
def askers (_ : Bool) : List Command := [⟨"dump", []⟩]

/-- Both are served; the command of one is read in two pieces. -/
def askersRun : List (Session.Event Bool) :=
  [.accept true, .recv true 5, .call true, .transmit true 3, .poll true, .accept false,
    .recv false 5, .call false, .transmit false 5, .transmit true 2, .poll true, .recv true 5,
    .poll false, .recv false 5]

/-- The two of them are served in some order. -/
theorem sessions_serial_askers :
    ∃ s, run (Session.step fun _ _ ↦ []) (Session.start (Config.zeroed ()) askers) askersRun =
        some s ∧
      ∃ order : List (Bool × Command),
        sendCommands (Config.zeroed ()) (order.map Prod.snd) = .ok s.config ∧
        shareOf true order = askers true ∧ shareOf false order = askers false := by
  have hrun := (Option.some_get (x := run (Session.step fun _ _ ↦ [])
    (Session.start (Config.zeroed ()) askers) askersRun) rfl).symm
  have hfits : ∀ i, ∀ x ∈ askers i, OneLine x := by
    intro i x hx
    rw [askers, List.mem_singleton] at hx
    subst hx
    exact ⟨by decide, by decide⟩
  obtain ⟨order, hsend, hshare⟩ := sessions_serial (fun _ _ ↦ []) askers hfits (Config.zeroed ())
    hrun (by decide)
  exact ⟨_, hrun, order, hsend, (List.append_nil _).symm.trans ((hshare true).2 rfl rfl rfl),
    (List.append_nil _).symm.trans ((hshare false).2 rfl rfl rfl)⟩

/-! ### Calls and their answers -/

/-- Whatever the configuration is, a command that is executed is answered, with at most what one
`recv` takes. -/
def Answered (x : Command) : Prop :=
  ∀ (c c' : Config H) (out : List Char), execute dump c x = .ok (c', out) →
    out ≠ [] ∧ out.length ≤ 1024

/-- Where a client stands, with its pending commands and the answers that have been written for
it. -/
inductive Peer.Stage (p : Peer) : List Command → List (List Char) → Prop
  | new (hphase : p.phase = .connecting) (haccepted : p.accepted = false) (hout : p.output = [])
    (hanswers : p.answers = []) : Stage p [] []
  | welcomed (hphase : p.phase = .connecting) (haccepted : p.accepted = true)
    (hout : p.output = welcome) (hanswers : p.answers = []) : Stage p [] []
  | idle (hphase : p.phase = .idle) (haccepted : p.accepted = true) (hout : p.output = []) :
    Stage p [] p.answers
  | calling (x : Command) (hphase : p.phase = .waiting) (haccepted : p.accepted = true)
    (hout : p.output = []) : Stage p [x] p.answers
  | answered (hphase : p.phase = .waiting) (haccepted : p.accepted = true) (hne : p.output ≠ [])
    (hle : p.output.length ≤ 1024) : Stage p [] (p.answers ++ [p.output])

/-- Bytes that move on do not change where a client stands. -/
theorem Peer.Stage.congr {p q : Peer} {pending : List Command} {written : List (List Char)}
    (h : p.Stage pending written) (hphase : q.phase = p.phase)
    (haccepted : q.accepted = p.accepted) (hout : q.output = p.output)
    (hanswers : q.answers = p.answers) : q.Stage pending written := by
  cases h with
  | new h1 h2 h3 h4 =>
    exact .new (hphase.trans h1) (haccepted.trans h2) (hout.trans h3) (hanswers.trans h4)
  | welcomed h1 h2 h3 h4 =>
    exact .welcomed (hphase.trans h1) (haccepted.trans h2) (hout.trans h3) (hanswers.trans h4)
  | idle h1 h2 h3 =>
    rw [← hanswers]
    exact .idle (hphase.trans h1) (haccepted.trans h2) (hout.trans h3)
  | calling x h1 h2 h3 =>
    rw [← hanswers]
    exact .calling x (hphase.trans h1) (haccepted.trans h2) (hout.trans h3)
  | answered h1 h2 h3 h4 =>
    rw [← hanswers, ← hout]
    exact .answered (hphase.trans h1) (haccepted.trans h2) (hout ▸ h3) (hout ▸ h4)

variable {p : Peer} {own rest done : List Command} {written new : List (List Char)}

/-- A client is welcomed once. -/
theorem Peer.Stage.accept (h : p.Stage own written) (hnew : p.accepted = false) :
    Peer.Stage { p with accepted := true, output := p.output ++ welcome } own written := by
  cases h with
  | new hphase haccepted hout hanswers =>
    exact .welcomed hphase rfl (by rw [hout, List.nil_append]) hanswers
  | welcomed _ haccepted | idle _ haccepted | calling _ _ haccepted | answered _ haccepted =>
    rw [haccepted] at hnew
    cases hnew

/-- A client calls when its last call has returned. -/
theorem Peer.Stage.call (h : p.Stage own written) (hphase : p.phase = .idle) (x : Command)
    (rest : List Command) (sending : List Char) :
    Peer.Stage { p with phase := .waiting, commands := rest, sending := sending } (own ++ [x])
      written := by
  cases h with
  | idle _ haccepted hout => exact .calling x rfl haccepted hout
  | new hphase' | welcomed hphase' | calling _ hphase' | answered hphase' =>
    rw [hphase'] at hphase
    cases hphase

variable {dump} in
/-- What a client has sent is read: its command is executed and answered, or still pending. -/
theorem Peer.Stage.read (h : p.Stage own written) (hne : own ≠ []) (hsplit : own = done ++ rest)
    {c c' : Config H} (hall : runAll (execute dump) c done = .ok (c', new))
    (hanswered : ∀ x ∈ own, Answered dump x) (input : List Char) :
    Peer.Stage { p with input := input, output := p.output ++ new.flatten } rest
      (written ++ new) := by
  cases h with
  | new | welcomed | idle | answered => exact absurd rfl hne
  | calling x hphase haccepted hempty =>
    rw [hempty, List.nil_append]
    cases done with
    | nil =>
      rw [runAll_nil, Except.ok.injEq, Prod.mk.injEq] at hall
      obtain ⟨-, rfl⟩ := hall
      rw [List.nil_append] at hsplit
      rw [← hsplit, List.append_nil]
      exact .calling x hphase haccepted rfl
    | cons y done =>
      rw [List.cons_append, List.cons.injEq, List.nil_eq_append_iff] at hsplit
      obtain ⟨rfl, rfl, rfl⟩ := hsplit
      rw [runAll] at hall
      cases hexec : execute dump c x with
      | error e =>
        rw [hexec] at hall
        cases hall
      | ok q =>
        rw [hexec] at hall
        have hnew : new = [q.2] := by
          change Except.ok (q.1, [q.2]) = _ at hall
          rw [Except.ok.injEq, Prod.mk.injEq] at hall
          exact hall.2.symm
        obtain ⟨hne, hle⟩ := hanswered x (List.mem_singleton_self x) c q.1 q.2 hexec
        rw [hnew, List.flatten_singleton]
        exact .answered hphase haccepted hne hle

/-- A client that connects receives the greeting. -/
theorem Peer.Stage.connect (h : p.Stage own written) (hphase : p.phase = .connecting)
    (hpos : 0 < p.output.length) :
    Peer.Stage { p with phase := .idle, output := p.output.drop p.output.length } own written := by
  cases h with
  | new _ _ hout =>
    rw [hout, List.length_nil] at hpos
    omega
  | welcomed _ haccepted hout hanswers =>
    have hstage := Peer.Stage.idle (p := { p with
      phase := .idle, output := p.output.drop p.output.length }) rfl haccepted List.drop_length
    rw [hanswers] at hstage ⊢
    exact hstage
  | idle hphase' | calling _ hphase' | answered hphase' =>
    rw [hphase'] at hphase
    cases hphase

/-- A call returns with the answer to its command. -/
theorem Peer.Stage.receive (h : p.Stage own written) (hphase : p.phase = .waiting)
    (hpos : 0 < p.output.length) :
    Peer.Stage { p with
      phase := .idle, output := p.output.drop p.output.length
      answers := p.answers ++ [p.output.take p.output.length] } own written := by
  cases h with
  | calling _ _ _ hout =>
    rw [hout, List.length_nil] at hpos
    omega
  | answered _ haccepted _ _ =>
    have hstage := Peer.Stage.idle (p := { p with
      phase := .idle, output := p.output.drop p.output.length
      answers := p.answers ++ [p.output.take p.output.length] }) rfl haccepted List.drop_length
    rw [List.take_length] at hstage ⊢
    exact hstage
  | new hphase' | welcomed hphase' | idle hphase' =>
    rw [hphase'] at hphase
    cases hphase

/-- The events that are still to come for a client, at most. -/
def Peer.toCome (p : Peer) : Nat :=
  (if p.accepted then 0 else 1) + (if p.phase = .idle then 0 else 1) +
    (p.commands.map fun x ↦ 2 * x.apply.toList.length + 2).sum +
    2 * p.sending.length + p.input.length

namespace Session

variable [DecidableEq ι] {c : Config H} {clients : ι → List Command} {s t : Session ι H}
  {order : List (ι × Command)} {answers : List (List Char)} {pending : ι → List Command}
  {dump}

/-- Every client stands somewhere between two calls. -/
def Lockstep (s : Session ι H) (order : List (ι × Command)) (answers : List (List Char))
    (pending : ι → List Command) : Prop :=
  ∀ i, (s.peers i).Stage (pending i) (shareOf i ((order.map Prod.fst).zip answers))

theorem lockstep_start (c : Config H) (clients : ι → List Command) :
    Lockstep (start c clients) [] [] fun _ ↦ [] := fun _ ↦ .new rfl rfl rfl rfl

/-- One client goes on. -/
theorem Lockstep.setPeer (h : Lockstep s order answers pending) {i : ι} {p : Peer}
    {own : List Command} (hp : p.Stage own (shareOf i ((order.map Prod.fst).zip answers))) :
    Lockstep (s.setPeer i p) order answers (Function.update pending i own) := by
  intro j
  by_cases hj : j = i
  · subst hj
    rw [peers_setPeer_self, Function.update_self]
    exact hp
  · rw [peers_setPeer_of_ne s hj, Function.update_of_ne hj]
    exact h j

/-- A client that has something on the way or in the buffer has a command pending. -/
theorem Serial.pending_ne_nil (h : Serial dump c clients s order answers pending) {i : ι}
    (hway : s.held i ++ ((s.peers i).input ++ (s.peers i).sending) ≠ []) : pending i ≠ [] := by
  intro hnone
  apply hway
  rw [← (h.owes i).stream, hnone, List.flatMap_nil]

/-- A client is read. -/
theorem Lockstep.poll (hl : Lockstep s order answers pending)
    (h : Serial dump c clients s order answers pending)
    (hanswered : ∀ i, ∀ x ∈ clients i, Answered dump x) {i : ι} (hinput : (s.peers i).input ≠ [])
    {done rest : List Command} {new : List (List Char)} {config : Config H}
    (hsplit : pending i = done ++ rest)
    (hall : runAll (execute dump) s.config done = .ok (config, new)) (msgIn : List Char) :
    Lockstep { s.setPeer i { s.peers i with
        input := (s.peers i).input.drop BUF_SIZE
        output := (s.peers i).output ++ new.flatten } with
      config, msgIn, reader := some i }
      (order ++ done.map (Prod.mk i)) (answers ++ new) (Function.update pending i rest) := by
  intro j
  have hlen : answers.length = order.length := by
    rw [length_of_runAll h.executed, List.length_map]
  rw [shareOf_zip_append hlen i (length_of_runAll hall)]
  show (Function.update s.peers i _ j).Stage _ _
  by_cases hj : j = i
  · subst hj
    rw [Function.update_self, Function.update_self, if_pos rfl]
    have hne : pending j ≠ [] := h.pending_ne_nil fun hnone ↦ by
      rw [List.append_eq_nil_iff, List.append_eq_nil_iff] at hnone
      exact hinput hnone.2.1
    refine (hl j).read hne hsplit hall (fun x hx ↦ hanswered j x ?_) _
    rw [← (h.owes j).sent]
    exact List.mem_append_right _ (List.mem_append_left _ hx)
  · rw [Function.update_of_ne hj, Function.update_of_ne hj, if_neg (Ne.symm hj), List.append_nil]
    exact hl j

/-- Every step keeps a call in step with its answer. -/
theorem lockstep_step (hfits : ∀ i, ∀ x ∈ clients i, OneLine x)
    (hanswered : ∀ i, ∀ x ∈ clients i, Answered dump x) {e : Event ι}
    (h : ∃ order answers pending, Serial dump c clients s order answers pending ∧
      Lockstep s order answers pending)
    (hturn : InTurn s e) (honce : AtOnce s e) (hstep : step dump s e = some t) :
    ∃ order answers pending, Serial dump c clients t order answers pending ∧
      Lockstep t order answers pending := by
  obtain ⟨order, answers, pending, h, hl⟩ := h
  have hsame {i : ι} {p : Peer} (hp : p.Stage (pending i)
      (shareOf i ((order.map Prod.fst).zip answers))) :
      Lockstep (s.setPeer i p) order answers pending := by
    have hs := hl.setPeer hp
    rwa [Function.update_eq_self] at hs
  cases took_of_step hstep with
  | accept i hnew => exact ⟨_, _, _, h.same rfl rfl (h.owes i).quiet, hsame ((hl i).accept hnew)⟩
  | call i x rest hphase hcommands =>
    exact ⟨_, _, _, h.setPeer ((h.owes i).call hphase hcommands),
      hl.setPeer ((hl i).call hphase x rest _)⟩
  | transmit i n hpos hle =>
    refine ⟨_, _, _, h.same rfl ?_ fun hne ↦ ?_, hsame ((hl i).congr rfl rfl rfl rfl)⟩
    · rw [List.append_assoc, List.take_append_drop]
    · rw [(h.owes i).quiet hne, List.drop_nil]
  | poll i haccepted hinput r hread =>
    obtain ⟨done, rest, new, hsplit, hall, hout, hs⟩ := h.poll hfits hturn hread
    rw [hout]
    exact ⟨_, _, _, hs _, hl.poll h hanswered hinput hsplit hall _⟩
  | connected i n hpos hle hsent hphase =>
    obtain rfl : n = (s.peers i).output.length := honce
    exact ⟨_, _, _, h.same rfl rfl fun _ ↦ hsent, hsame ((hl i).connect hphase hpos)⟩
  | answered i n hpos hle hsent hphase =>
    obtain rfl : n = (s.peers i).output.length := honce
    exact ⟨_, _, _, h.same rfl rfl fun _ ↦ hsent, hsame ((hl i).receive hphase hpos)⟩

/-! ### Going on -/

/-- The client has made all its calls, and all of them have returned. -/
def Finished (s : Session ι H) (i : ι) : Prop :=
  (s.peers i).phase = .idle ∧ (s.peers i).commands = []

/-- The process ends on what it reads next from the client. -/
def Faulty (dump : Config H → List Char → List Char) (s : Session ι H) (i : ι) : Prop :=
  ∃ fault, dataEvent dump (s.config, s.msgIn) ((s.peers i).input.take BUF_SIZE) = .error fault

/-- A next event that keeps the clients apart and takes whole answers. -/
def GoesOn (dump : Config H → List Char → List Char) (s : Session ι H) : Prop :=
  ∃ e t, step dump s e = some t ∧ InTurn s e ∧ AtOnce s e

theorem goesOn_of_step {e : Event ι} (hstep : (step dump s e).isSome = true) (hturn : InTurn s e)
    (honce : AtOnce s e) : GoesOn dump s := by
  obtain ⟨t, ht⟩ := Option.isSome_iff_exists.mp hstep
  exact ⟨e, t, ht, hturn, honce⟩

/-- A client that may be read goes on, until it is finished. -/
theorem goesOn_of_inTurn (h : Serial dump c clients s order answers pending)
    (hl : Lockstep s order answers pending) {i : ι} (hturn : InTurn s (.poll i))
    (hunfinished : ¬ s.Finished i) : GoesOn dump s ∨ Faulty dump s i := by
  have hi := hl i
  have howes := h.owes i
  generalize hown : pending i = own, shareOf i ((order.map Prod.fst).zip answers) = written
    at hi howes
  cases hi with
  | new hphase haccepted hout hanswers =>
    refine .inl (goesOn_of_step (e := .accept i) ?_ trivial trivial)
    dsimp only [step]
    rw [haccepted]
    rfl
  | welcomed hphase haccepted hout hanswers =>
    have hsending := howes.quiet (by rw [hphase]; decide)
    refine .inl (goesOn_of_step (e := .recv i (s.peers i).output.length) ?_ trivial rfl)
    dsimp only [step]
    rw [if_pos (by rw [hout, hsending]; decide), hphase]
    rfl
  | idle hphase haccepted hout =>
    cases hcommands : (s.peers i).commands with
    | nil => exact absurd ⟨hphase, hcommands⟩ hunfinished
    | cons x rest =>
      refine .inl (goesOn_of_step (e := .call i) ?_ trivial trivial)
      dsimp only [step]
      rw [hphase, hcommands]
      rfl
  | calling x hphase haccepted hout =>
    by_cases hsending : (s.peers i).sending = []
    · have hinput : (s.peers i).input ≠ [] := by
        intro hinput
        have hstream := howes.stream
        have hpartly := howes.partly x rfl
        rw [hinput, hsending, List.append_nil, List.append_nil, List.flatMap_singleton] at hstream
        rw [← hstream] at hpartly
        exact Nat.lt_irrefl _ hpartly
      cases hread : dataEvent dump (s.config, s.msgIn) ((s.peers i).input.take BUF_SIZE) with
      | error fault => exact .inr ⟨fault, hread⟩
      | ok r =>
        refine .inl (goesOn_of_step (e := .poll i) ?_ hturn trivial)
        dsimp only [step]
        rw [if_pos ⟨haccepted, hinput⟩, hread]
        rfl
    · refine .inl (goesOn_of_step (e := .transmit i (s.peers i).sending.length) ?_ trivial trivial)
      dsimp only [step]
      rw [if_pos ⟨List.length_pos_of_ne_nil hsending, Nat.le_refl _⟩]
      rfl
  | answered hphase haccepted hne hle =>
    have hsending : (s.peers i).sending = [] := by
      have hstream := howes.stream
      rw [List.flatMap_nil] at hstream
      have hway := (List.append_eq_nil_iff.mp hstream.symm).2
      exact (List.append_eq_nil_iff.mp hway).2
    refine .inl (goesOn_of_step (e := .recv i (s.peers i).output.length) ?_ trivial rfl)
    dsimp only [step]
    rw [if_pos ⟨List.length_pos_of_ne_nil hne, Nat.le_refl _, hle, hsending⟩, hphase]
    rfl

/-- As long as a client is not finished, some client goes on. -/
theorem goesOn_or_faulty (h : Serial dump c clients s order answers pending)
    (hl : Lockstep s order answers pending) {i : ι} (hunfinished : ¬ s.Finished i) :
    GoesOn dump s ∨ ∃ j, InTurn s (.poll j) ∧ Faulty dump s j := by
  by_cases hmsg : s.msgIn = []
  · exact (goesOn_of_inTurn h hl (.inl hmsg) hunfinished).imp_right fun hf ↦ ⟨i, .inl hmsg, hf⟩
  · -- the client whose line is in the buffer
    obtain ⟨j, hj⟩ : ∃ j, s.reader = some j := by
      cases hr : s.reader with
      | none => exact absurd (h.fresh hr) hmsg
      | some j => exact ⟨j, rfl⟩
    have hpending : pending j ≠ [] := by
      apply h.pending_ne_nil
      rw [held, if_pos hj]
      exact fun hnone ↦ hmsg (List.append_eq_nil_iff.mp hnone).1
    have hbusy : ¬ s.Finished j := by
      rintro ⟨hphase, -⟩
      have hstage := hl j
      generalize pending j = own, shareOf j ((order.map Prod.fst).zip answers) = written
        at hstage hpending
      cases hstage with
      | calling _ hphase' =>
        rw [hphase'] at hphase
        cases hphase
      | new | welcomed | idle | answered => exact hpending rfl
    exact (goesOn_of_inTurn h hl (.inr hj) hbusy).imp_right fun hf ↦ ⟨j, .inr hj, hf⟩

/-- Commands that cannot fail do not end the process. -/
theorem not_faulty (h : Serial dump c clients s order answers pending)
    (hfits : ∀ i, ∀ x ∈ clients i, OneLine x)
    (hok : ∀ i, ∀ x ∈ clients i, ∀ c, ∃ q, execute dump c x = .ok q) {i : ι}
    (hturn : InTurn s (.poll i)) : ¬ Faulty dump s i := by
  rintro ⟨fault, hfault⟩
  obtain ⟨done, rest, msgIn, hsplit, -, -, hfeed⟩ := h.piece hfits hturn
  have hdone : ∀ x ∈ done, x ∈ clients i := by
    intro x hx
    rw [← (h.owes i).sent, hsplit]
    exact List.mem_append_right _ (List.mem_append_left _ (List.mem_append_left _ hx))
  obtain ⟨q, hq⟩ := exists_runAll (fun x hx ↦ hok i x (hdone x hx)) s.config
  rw [dataEvent, hfeed, hq] at hfault
  cases hfault

/-- Every event leaves less to come. -/
theorem toCome_lt [Fintype ι] {e : Event ι} (hstep : step dump s e = some t) :
    ∑ i, (t.peers i).toCome < ∑ i, (s.peers i).toCome := by
  have hupdate {i : ι} {p : Peer} (hp : p.toCome < (s.peers i).toCome) :
      ∑ j, (Function.update s.peers i p j).toCome < ∑ j, (s.peers j).toCome := by
    apply Finset.sum_lt_sum
    · intro j _
      by_cases hj : j = i
      · subst hj
        rw [Function.update_self]
        exact hp.le
      · rw [Function.update_of_ne hj]
    · exact ⟨i, Finset.mem_univ i, by rwa [Function.update_self]⟩
  cases took_of_step hstep with
  | accept i hnew =>
    apply hupdate
    simp only [Peer.toCome, hnew]
    simp
  | call i x rest hphase hcommands =>
    apply hupdate
    simp only [Peer.toCome, hphase, hcommands, List.map_cons, List.sum_cons]
    simp
    omega
  | transmit i n hpos hle =>
    apply hupdate
    simp only [Peer.toCome, List.length_append, List.length_take, List.length_drop]
    omega
  | poll i haccepted hinput r hread =>
    apply hupdate
    have hpos := List.length_pos_of_ne_nil hinput
    have hbuf : 0 < BUF_SIZE := by decide
    simp only [Peer.toCome, List.length_drop]
    omega
  | connected i n hpos hle hsent hphase =>
    apply hupdate
    simp only [Peer.toCome, hphase]
    simp
  | answered i n hpos hle hsent hphase =>
    apply hupdate
    simp only [Peer.toCome, hphase]
    simp

end Session

/-- A run in which no client is read in the middle of a line of another one, and in which `recv`
takes whole answers, keeps every call in step. -/
theorem lockstep_of_run [DecidableEq ι] {dump : Config H → List Char → List Char}
    {clients : ι → List Command} (hfits : ∀ i, ∀ x ∈ clients i, OneLine x)
    (hanswered : ∀ i, ∀ x ∈ clients i, Answered dump x) {c : Config H}
    {es : List (Session.Event ι)} {s : Session ι H}
    (hrun : run (Session.step dump) (Session.start c clients) es = some s)
    (hgood : Along (Session.step dump) (fun s e ↦ s.InTurn e ∧ s.AtOnce e)
      (Session.start c clients) es) :
    ∃ order answers pending, Session.Serial dump c clients s order answers pending ∧
      Session.Lockstep s order answers pending :=
  run_invariant_along (P := fun s ↦ ∃ order answers pending,
      Session.Serial dump c clients s order answers pending ∧
        Session.Lockstep s order answers pending)
    (fun _ _ _ h hq hstep ↦ Session.lockstep_step hfits hanswered h hq.1 hq.2 hstep)
    ⟨_, _, _, Session.serial_start dump c clients, Session.lockstep_start c clients⟩ hgood hrun

/-- What the clients see is one sequential run: every call that has returned has returned what its
own command is answered there, a client that is not in a call has had all its commands so far
executed, and no command is executed out of the order of its client. -/
theorem sessions_linearizable [DecidableEq ι] (clients : ι → List Command)
    (hfits : ∀ i, ∀ x ∈ clients i, OneLine x) (hanswered : ∀ i, ∀ x ∈ clients i, Answered dump x)
    (c : Config H) {es : List (Session.Event ι)} {s : Session ι H}
    (hrun : run (Session.step dump) (Session.start c clients) es = some s)
    (hgood : Along (Session.step dump) (fun s e ↦ s.InTurn e ∧ s.AtOnce e)
      (Session.start c clients) es) :
    ∃ (order : List (ι × Command)) (answers : List (List Char)),
      runAll (execute dump) c (order.map Prod.snd) = .ok (s.config, answers) ∧
      ∀ i, shareOf i order <+: clients i ∧
        (s.peers i).answers <+: shareOf i ((order.map Prod.fst).zip answers) ∧
        ((s.peers i).phase = .idle →
          shareOf i order ++ (s.peers i).commands = clients i ∧
          (s.peers i).answers = shareOf i ((order.map Prod.fst).zip answers)) := by
  obtain ⟨order, answers, pending, h, hl⟩ := lockstep_of_run hfits hanswered hrun hgood
  refine ⟨order, answers, h.executed, fun i ↦ ⟨⟨_, (h.owes i).sent⟩, ?_⟩⟩
  have howes := h.owes i
  have hi := hl i
  generalize pending i = own, shareOf i ((order.map Prod.fst).zip answers) = written at hi howes ⊢
  cases hi with
  | new hphase _ _ hnone | welcomed hphase _ _ hnone =>
    rw [hnone, hphase]
    exact ⟨List.prefix_refl _, fun hidle ↦ nomatch hidle⟩
  | idle =>
    refine ⟨List.prefix_refl _, fun _ ↦ ⟨?_, rfl⟩⟩
    rw [← howes.sent, List.nil_append]
  | calling _ hphase =>
    rw [hphase]
    exact ⟨List.prefix_refl _, fun hidle ↦ nomatch hidle⟩
  | answered hphase =>
    rw [hphase]
    exact ⟨List.prefix_append _ _, fun hidle ↦ nomatch hidle⟩

/-- Both calls of the two clients return the answer to their command. -/
theorem sessions_linearizable_askers :
    ∃ s, run (Session.step fun _ _ ↦ []) (Session.start (Config.zeroed ()) askers) askersRun =
        some s ∧
      ∃ (order : List (Bool × Command)) (answers : List (List Char)),
        runAll (execute fun _ _ ↦ []) (Config.zeroed ()) (order.map Prod.snd) =
          .ok (s.config, answers) ∧
        ∀ i, shareOf i order = askers i ∧
          (s.peers i).answers = shareOf i ((order.map Prod.fst).zip answers) := by
  have hrun := (Option.some_get (x := run (Session.step fun _ _ ↦ [])
    (Session.start (Config.zeroed ()) askers) askersRun) rfl).symm
  have hfits : ∀ i, ∀ x ∈ askers i, OneLine x := by
    intro i x hx
    rw [askers, List.mem_singleton] at hx
    subst hx
    exact ⟨by decide, by decide⟩
  have hanswered : ∀ i, ∀ x ∈ askers i, Answered (H := Unit) (fun _ _ ↦ []) x := by
    intro i x hx c c' out hexec
    rw [askers, List.mem_singleton] at hx
    subst hx
    change Except.ok (c, "nf 0\n".toList) = _ at hexec
    cases hexec
    exact ⟨by decide, by decide⟩
  obtain ⟨order, answers, hexec, hall⟩ := sessions_linearizable (fun _ _ ↦ []) askers hfits
    hanswered (Config.zeroed ()) hrun (by decide)
  refine ⟨_, hrun, order, answers, hexec, fun i ↦ ?_⟩
  obtain ⟨-, -, hidle⟩ := hall i
  have hphase := hidle (by cases i <;> rfl)
  exact ⟨(List.append_nil _).symm.trans (by cases i <;> exact hphase.1), hphase.2⟩

end Nflambda.Deploy
