import Nflambda.Base.Streams
import Nflambda.Runtime.Cli

/-!
# The connection of the command interface

Library `Runtime`. Source `src/runtime/conn.c:201–252` with the parameters of
`src/runtime/main.c:15–34`. The bytes of a read are handled one by one; what is
written to the socket is modelled with them.
-/

namespace Nflambda.Runtime

open Nflambda.Base

variable {H : Type}

/-- `welcome`, `main.c:15`. -/
def welcome : List Char := "hello".toList

/-- `prompt`, `main.c:17`. -/
def prompt : List Char := []

/-- `MSG_CMD_TOO_LONG`, `conn.c:19`. -/
def MSG_CMD_TOO_LONG : List Char := "Command too long.".toList

/-- `buf_size`, `main.c:28`. -/
abbrev BUF_SIZE : Nat := 1024 * 1024

/-- `msg_in_len_max`, `main.c:29`. -/
abbrev MSG_IN_LEN_MAX : Nat := 1024

/-- The bytes of a reply; `statistics` is the text that a `dump` prints. -/
def Reply.bytes (statistics : List Char) : Reply → List Char
  | .text s => s.toList
  | .statistics => statistics

/-- The bytes of a message that `cli_process` handles, and what is written. `dump` prints the
statistics of a configuration for a line. -/
def msgHandle (dump : Config H → List Char → List Char) (c : Config H) (msgIn : List Char) :
    Except Fault (Config H × List Char) :=
  (cliProcess c (cString msgIn)).map fun r ↦ (r.1, r.2.bytes (dump c (cString msgIn)))

/-- The body of the loop of `data_event_handle`, `conn.c:222–252`, for one byte. The state is the
configuration and `msg_in`. -/
def readByte (dump : Config H → List Char → List Char) (s : Config H × List Char) (b : Char) :
    Except Fault ((Config H × List Char) × List Char) :=
  if b = '\n' then (msgHandle dump s.1 s.2).map fun r ↦ ((r.1, []), r.2)
  else if s.2.length < MSG_IN_LEN_MAX then .ok ((s.1, s.2 ++ [b]), [])
  else .ok ((s.1, []), MSG_CMD_TOO_LONG)

/-- `data_event_handle`, `conn.c:201–252`, on the bytes of one read: what is written, the prompt
included. -/
def dataEvent (dump : Config H → List Char → List Char) (s : Config H × List Char)
    (bytes : List Char) : Except Fault ((Config H × List Char) × List Char) :=
  (feed (readByte dump) s bytes).map fun r ↦ (r.1, r.2 ++ prompt)

variable (dump : Config H → List Char → List Char)

/-- The bytes that are written do not change what a read does. -/
theorem feed_readByte (c : Config H) (msgIn bytes : List Char) :
    (feed (readByte dump) (c, msgIn) bytes).map Prod.fst = dataEventHandle c msgIn bytes := by
  induction bytes generalizing c msgIn with
  | nil => rfl
  | cons b rest ih =>
    have hmap (s : Config H × List Char) (out : List Char) :
        ((feed (readByte dump) s rest).map fun q ↦ (q.1, out ++ q.2)).map Prod.fst =
          dataEventHandle s.1 s.2 rest := by
      rw [← ih s.1 s.2]
      cases feed (readByte dump) (s.1, s.2) rest with
      | error e => rfl
      | ok r => rfl
    rw [feed, dataEventHandle, readByte]
    split
    · rw [msgHandle]
      cases cliProcess c (cString msgIn) with
      | error e => rfl
      | ok r => exact hmap (r.1, []) _
    · split
      · exact hmap (c, msgIn ++ [b]) []
      · exact hmap (c, []) _

/-! ### Lines -/

/-- A line that the buffer holds. -/
def LineFits (line : List Char) : Prop := '\n' ∉ line ∧ line.length ≤ MSG_IN_LEN_MAX

/-- Bytes of a line that fit are kept. -/
theorem feed_collect (c : Config H) (msgIn line : List Char) (hn : '\n' ∉ line)
    (hl : msgIn.length + line.length ≤ MSG_IN_LEN_MAX) :
    feed (readByte dump) (c, msgIn) line = .ok ((c, msgIn ++ line), []) := by
  induction line generalizing msgIn with
  | nil => simp
  | cons x line ih =>
    rw [List.mem_cons, not_or] at hn
    rw [List.length_cons] at hl
    have hlen : (msgIn ++ [x]).length + line.length ≤ MSG_IN_LEN_MAX := by
      rw [List.length_append, List.length_singleton]
      omega
    have hx : ¬x = '\n' := Ne.symm hn.1
    have hfree : msgIn.length < MSG_IN_LEN_MAX := by omega
    rw [feed, readByte, if_neg hx, if_pos hfree]
    show (feed (readByte dump) (c, msgIn ++ [x]) line).map _ = _
    rw [ih (msgIn ++ [x]) hn.2 hlen, List.append_assoc]
    rfl

/-- Lines are frames: a line is kept until its end is read, and is executed then. -/
theorem framed_lines :
    Framed (readByte dump) (msgHandle dump) (fun c p ↦ (c, p)) (fun line ↦ line ++ ['\n'])
      LineFits where
  nonempty line _ := by simp
  part c line p t hfits hp ht := by
    obtain ⟨t', x, rfl⟩ := List.eq_nil_or_concat t |>.resolve_left ht
    rw [List.concat_eq_append, ← List.append_assoc] at hp
    obtain ⟨rfl, -⟩ := List.append_inj' hp rfl
    obtain ⟨hn, hl⟩ := hfits
    rw [List.mem_append, not_or] at hn
    rw [List.length_append] at hl
    exact feed_collect dump c [] p hn.1 (by rw [List.length_nil]; omega)
  whole c line hfits := by
    rw [feed_append, feed_collect dump c [] line hfits.1 (by
      rw [List.length_nil, Nat.zero_add]
      exact hfits.2)]
    show (feed (readByte dump) (c, line) ['\n']).map _ = _
    rw [feed, readByte, if_pos rfl]
    cases msgHandle dump c line with
    | error e => rfl
    | ok r =>
      show Except.ok _ = Except.ok _
      simp

end Nflambda.Runtime
