import Mathlib.Algebra.Order.Ring.Int
import Nflambda.Director.Command
import Nflambda.Runtime.Cli

/-!
# From the director to the command interface

Library `Deploy`. The bytes of a command, `src/director/nflambda/command.py`,
are read by `data_event_handle`, `src/runtime/conn.c:201–252`, cut into tokens
and dispatched by `cli_process`, `src/runtime/cli.c:42–431`. Below: the tokens
are the words of the command, and `atoi` reads every printed `int` back.
-/

namespace Nflambda.Deploy

open Nflambda.Base Nflambda.Runtime Nflambda.Director

variable {H : Type}

/-- `send_command`, `platform.py:57–89`: the runtime reads the bytes of one command. -/
def sendCommand (c : Config H) (command : Command) : Except Fault (Config H) :=
  (dataEventHandle c [] command.apply.toList).map Prod.fst

/-- Commands that are sent one after the other. -/
def sendCommands (c : Config H) (commands : List Command) : Except Fault (Config H) :=
  commands.foldlM sendCommand c

/-- Nothing is sent. -/
@[simp] theorem sendCommands_nil (c : Config H) : sendCommands c [] = .ok c := rfl

/-- The first command is executed first. -/
theorem sendCommands_cons (c : Config H) (command : Command) (commands : List Command) :
    sendCommands c (command :: commands) =
      sendCommand c command >>= fun c' ↦ sendCommands c' commands := rfl

/-- Two sequences of commands are executed one after the other. -/
theorem sendCommands_append (c : Config H) (xs ys : List Command) :
    sendCommands c (xs ++ ys) = sendCommands c xs >>= fun c' ↦ sendCommands c' ys := by
  unfold sendCommands
  rw [List.foldlM_append]

/-- The second sequence starts where the first one ends. -/
theorem sendCommands_append_of_ok {c d : Config H} {xs : List Command}
    (h : sendCommands c xs = .ok d) (ys : List Command) :
    sendCommands c (xs ++ ys) = sendCommands d ys := by
  rw [sendCommands_append, h]
  rfl

/-- A run of two sequences of commands is a run of the first and then one of the second. -/
theorem exists_of_sendCommands_append {c c' : Config H} {xs ys : List Command}
    (h : sendCommands c (xs ++ ys) = .ok c') :
    ∃ d, sendCommands c xs = .ok d ∧ sendCommands d ys = .ok c' := by
  rw [sendCommands_append] at h
  cases hx : sendCommands c xs with
  | error e =>
    rw [hx] at h
    cases h
  | ok d =>
    rw [hx] at h
    exact ⟨d, rfl, h⟩

/-! ### Lines -/

/-- A read may end anywhere: the rest is handled by the next one. -/
theorem dataEventHandle_append (c : Config H) (msgIn a b : List Char) :
    dataEventHandle c msgIn (a ++ b) =
      dataEventHandle c msgIn a >>= fun r ↦ dataEventHandle r.1 r.2 b := by
  induction a generalizing c msgIn with
  | nil => rfl
  | cons x a ih =>
    rw [List.cons_append, dataEventHandle, dataEventHandle]
    split
    · cases cliProcess c (cString msgIn) with
      | error e => rfl
      | ok r => exact ih r.1 []
    · split
      · exact ih c (msgIn ++ [x])
      · exact ih c []

private theorem dataEventHandle_collect (c : Config H) (msgIn line : List Char)
    (hn : ∀ x ∈ line, x ≠ '\n') (hl : msgIn.length + line.length ≤ 1024) :
    dataEventHandle c msgIn line = .ok (c, msgIn ++ line) := by
  induction line generalizing msgIn with
  | nil => simp [dataEventHandle]
  | cons x line ih =>
    rw [List.length_cons] at hl
    unfold dataEventHandle
    rw [if_neg (hn x List.mem_cons_self), if_pos (by omega),
      ih (msgIn ++ [x]) (fun y hy ↦ hn y (List.mem_cons_of_mem x hy))
        (by rw [List.length_append, List.length_singleton]; omega)]
    simp

private theorem dataEventHandle_newline (c : Config H) (msgIn : List Char) :
    dataEventHandle c msgIn ['\n'] = (cliProcess c (cString msgIn)).map (fun r ↦ (r.1, [])) := by
  rw [dataEventHandle, if_pos rfl]
  cases cliProcess c (cString msgIn) with
  | error e => rfl
  | ok r => rfl

/-- A line that fits the buffer is processed when its end is read. -/
theorem dataEventHandle_line (c : Config H) (line : List Char) (hn : ∀ x ∈ line, x ≠ '\n')
    (hz : ∀ x ∈ line, x ≠ '\x00') (hl : line.length ≤ 1024) :
    dataEventHandle c [] (line ++ ['\n']) =
      (cliProcess c line).map (fun r ↦ (r.1, [])) := by
  have hstring : cString line = line := by
    unfold cString
    rw [List.takeWhile_eq_self_iff]
    intro x hx
    simpa using hz x hx
  rw [dataEventHandle_append, dataEventHandle_collect c [] line hn (by simpa using hl)]
  change dataEventHandle c line ['\n'] = _
  rw [dataEventHandle_newline, hstring]

/-- At the end of a line, the whole line is processed, or what has followed since the buffer was
full. -/
theorem exists_processed (c : Config H) (msgIn line : List Char) (hn : ∀ x ∈ line, x ≠ '\n')
    (hl : msgIn.length ≤ 1024) : ∃ l,
      dataEventHandle c msgIn (line ++ ['\n']) =
        (cliProcess c (cString l)).map (fun r ↦ (r.1, [])) ∧
      (l = msgIn ++ line ∨ ∃ k, 1024 < msgIn.length + k ∧ l = line.drop k) := by
  induction line generalizing msgIn with
  | nil =>
    refine ⟨msgIn, dataEventHandle_newline c msgIn, .inl ?_⟩
    rw [List.append_nil]
  | cons x line ih =>
    have hrest : ∀ y ∈ line, y ≠ '\n' := fun y hy ↦ hn y (List.mem_cons_of_mem x hy)
    rw [List.cons_append, dataEventHandle, if_neg (hn x List.mem_cons_self)]
    split
    · next hfree =>
      have hlen : (msgIn ++ [x]).length = msgIn.length + 1 := by simp
      obtain ⟨l, hl', hcase⟩ := ih (msgIn ++ [x]) hrest (by omega)
      refine ⟨l, hl', ?_⟩
      rcases hcase with rfl | ⟨k, hk, rfl⟩
      · left
        rw [List.append_assoc, List.singleton_append]
      · exact .inr ⟨k + 1, by omega, rfl⟩
    · obtain ⟨l, hl', hcase⟩ := ih [] hrest (Nat.zero_le _)
      refine ⟨l, hl', .inr ?_⟩
      rcases hcase with rfl | ⟨k, hk, rfl⟩
      · exact ⟨1, by omega, rfl⟩
      · rw [List.length_nil] at hk
        exact ⟨k + 1, by omega, rfl⟩

/-- After a command the runtime waits for a new line. -/
theorem dataEventHandle_of_sendCommand {c c' : Config H} {command : Command}
    (h : sendCommand c command = .ok c') :
    dataEventHandle c [] command.apply.toList = .ok (c', []) := by
  unfold sendCommand at h
  rw [Command.toList_apply, dataEventHandle_append] at h ⊢
  cases hl : dataEventHandle c []
      (joinWords ' ' command.command.toList (command.argumentList.map String.toList)) with
  | error e =>
    rw [hl] at h
    cases h
  | ok r =>
    rw [hl] at h
    change (dataEventHandle r.1 r.2 ['\n']).map Prod.fst = .ok c' at h
    change dataEventHandle r.1 r.2 ['\n'] = .ok (c', [])
    rw [dataEventHandle_newline] at h ⊢
    cases hp : cliProcess r.1 (cString r.2) with
    | error e =>
      rw [hp] at h
      cases h
    | ok x =>
      rw [hp] at h
      cases h
      rfl

/-! ### Words -/

/-- The characters of a word: no delimiter and no NUL. -/
def IsWordChar (x : Char) : Prop := isDelimiter x = false ∧ x ≠ '\x00'

/-- A word that the tokenizer keeps in one piece. -/
structure IsWord (w : List Char) : Prop where
  nonempty : w ≠ []
  chars : ∀ x ∈ w, IsWordChar x

/-- Digits are no delimiters. -/
theorem isWordChar_of_isDigit {x : Char} (h : x.isDigit = true) : IsWordChar x := by
  have hne : ∀ y : Char, y.isDigit = false → x ≠ y := by
    rintro y hy rfl
    rw [h] at hy
    exact absurd hy (by decide)
  refine ⟨?_, hne _ (by decide)⟩
  simp only [isDelimiter, Bool.or_eq_false_iff, beq_eq_false_iff_ne]
  exact ⟨⟨⟨⟨⟨hne _ (by decide), hne _ (by decide)⟩, hne _ (by decide)⟩, hne _ (by decide)⟩,
    hne _ (by decide)⟩, hne _ (by decide)⟩

/-- A printed number is a word. -/
theorem isWord_decimalChars (i : Int) : IsWord (decimalChars i) where
  nonempty := decimalChars_ne_nil i
  chars := forall_mem_decimalChars (fun _ h ↦ isWordChar_of_isDigit h)
    ⟨by decide, by decide⟩ i

/-- The tokens of a line of words are the words. -/
theorem strtok_joinWords (first : List Char) (rest : List (List Char)) (hf : IsWord first)
    (hr : ∀ w ∈ rest, IsWord w) :
    strtok (joinWords ' ' first rest) = (first :: rest).map String.ofList := by
  have hfilter : (first :: rest).filter (fun w ↦ decide (w ≠ [])) = first :: rest := by
    rw [List.filter_eq_self]
    intro w hw
    rcases List.mem_cons.mp hw with rfl | hw
    · simpa using hf.nonempty
    · simpa using (hr w hw).nonempty
  unfold strtok
  rw [splitOnP_joinWords isDelimiter ' ' rfl first rest (fun x hx ↦ (hf.chars x hx).1)
    (fun w hw x hx ↦ ((hr w hw).chars x hx).1), hfilter]

/-- A line of at most 256 words is cut into its words. -/
theorem parseTokenizeString_joinWords (first : List Char) (rest : List (List Char))
    (hf : IsWord first) (hr : ∀ w ∈ rest, IsWord w) (hlen : rest.length ≤ 255) :
    parseTokenizeString (joinWords ' ' first rest) =
      some (String.ofList first :: rest.map String.ofList) := by
  have hl : (String.ofList first :: rest.map String.ofList).length ≤ CMD_MAX_TOKENS := by
    rw [List.length_cons, List.length_map]
    exact Nat.succ_le_succ hlen
  unfold parseTokenizeString
  rw [strtok_joinWords first rest hf hr]
  exact if_pos hl

/-- A line of words is dispatched on its words, unless it starts like a comment. -/
theorem cliProcess_joinWords (c : Config H) (first : List Char) (rest : List (List Char))
    (hf : IsWord first) (hr : ∀ w ∈ rest, IsWord w) (hlen : rest.length ≤ 255)
    (hcom : isComment (joinWords ' ' first rest) = false) :
    cliProcess c (joinWords ' ' first rest) =
      dispatch c (String.ofList first :: rest.map String.ofList) := by
  unfold cliProcess
  rw [hcom, parseTokenizeString_joinWords first rest hf hr hlen]
  rfl

/-! ### Numbers -/

/-- The values of a C `int`. -/
def IsInt (i : Int) : Prop := -(2 ^ 31) ≤ i ∧ i < 2 ^ 31

/-- Positions in tables are `int` values. -/
theorem isInt_val {n : Nat} (h : n ≤ 2 ^ 31) (i : Fin n) : IsInt (i.val : Int) := by
  have hi := i.isLt
  constructor <;> omega

private theorem toInt32_of_isInt {i : Int} (h : IsInt i) : toInt32 i = i := by
  obtain ⟨h1, h2⟩ := h
  unfold toInt32
  apply Int.bmod_eq_of_le
  · omega
  · omega

private theorem digitsValue_toDigits (n : Nat) {rest : List Char}
    (h : ∀ x ∈ rest.head?, x.isDigit = false) :
    digitsValue (Nat.toDigits 10 n ++ rest) = n := by
  have htake : (Nat.toDigits 10 n ++ rest).takeWhile Char.isDigit = Nat.toDigits 10 n := by
    rw [List.takeWhile_append_of_pos fun c hc ↦
      Nat.isDigit_of_mem_toDigits (by decide) (by decide) hc]
    cases rest with
    | nil => simp
    | cons x rest =>
      rw [List.takeWhile_cons_of_neg (by simp [h x rfl]), List.append_nil]
  rw [digitsValue, htake, Nat.ofDigitChars_ten_toDigits]

/-- `strtol` reads the digits at the start of a text. -/
theorem strtol_toDigits (n : Nat) {rest : List Char} (h : ∀ x ∈ rest.head?, x.isDigit = false) :
    strtol (Nat.toDigits 10 n ++ rest) = min (2 ^ 63 - 1) (n : Int) := by
  have hv := digitsValue_toDigits n h
  obtain ⟨x, digits, hx, hdig⟩ := exists_digit_cons n
  have hdel := (isWordChar_of_isDigit hdig).1
  rw [hx, List.cons_append] at hv ⊢
  unfold strtol
  rw [List.dropWhile_cons_of_neg (by simp [hdel])]
  split
  · next he =>
    rw [List.cons.injEq] at he
    rw [he.1] at hdig
    exact absurd hdig (by decide)
  · next he =>
    rw [List.cons.injEq] at he
    rw [he.1] at hdig
    exact absurd hdig (by decide)
  · rw [hv]

/-- `atoi` reads a printed `int` back. -/
theorem atoi_toString {i : Int} (h : IsInt i) : atoi (toString i) = i := by
  have hs : strtol (decimalChars i) = i := by
    obtain ⟨h1, h2⟩ := h
    unfold decimalChars
    split
    · next hneg =>
      have hd : ('-' :: Nat.toDigits 10 i.natAbs).dropWhile isDelimiter =
          '-' :: Nat.toDigits 10 i.natAbs := rfl
      have hv : digitsValue (Nat.toDigits 10 i.natAbs ++ []) = i.natAbs :=
        digitsValue_toDigits i.natAbs (by simp)
      rw [List.append_nil] at hv
      rw [strtol, hd]
      simp only [hv]
      omega
    · next hpos =>
      have hv : strtol (Nat.toDigits 10 i.natAbs ++ []) = min (2 ^ 63 - 1) (i.natAbs : Int) :=
        strtol_toDigits i.natAbs (by simp)
      rw [List.append_nil] at hv
      rw [hv]
      omega
  unfold atoi
  rw [toList_toString_int, hs, toInt32_of_isInt h]

/-- `atoi` reads the digits at the start of a text. -/
theorem atoi_toDigits {n : Nat} (h : IsInt n) {rest : List Char}
    (hrest : ∀ x ∈ rest.head?, x.isDigit = false) :
    atoi (String.ofList (Nat.toDigits 10 n ++ rest)) = n := by
  unfold atoi
  have hmin : min (2 ^ 63 - 1) (n : Int) = n := by
    have h2 := h.2
    omega
  rw [String.toList_ofList, strtol_toDigits n hrest, hmin, toInt32_of_isInt h]

/-! ### Commands -/

/-- The first words of the director's commands. -/
def commandWords : List String := ["config", "state", "action", "worker", "port"]

/-- The first words of commands are words. -/
theorem isWord_of_commandWords {s : String} (h : s ∈ commandWords) :
    IsWord s.toList := by
  simp only [commandWords, List.mem_cons, List.not_mem_nil, or_false] at h
  rcases h with rfl | rfl | rfl | rfl | rfl <;>
    exact ⟨by simp, by simp [IsWordChar, isDelimiter]⟩

/-- No command is taken for a comment. -/
theorem isComment_commandWords {s : String} (h : s ∈ commandWords)
    (rest : List (List Char)) : isComment (joinWords ' ' s.toList rest) = false := by
  simp only [commandWords, List.mem_cons, List.not_mem_nil, or_false] at h
  rcases h with rfl | rfl | rfl | rfl | rfl <;> rfl

/-- Characters of words do not end a line. -/
theorem isWordChar_plain {x : Char} (h : IsWordChar x) : x ≠ '\n' ∧ x ≠ '\x00' := by
  refine ⟨?_, h.2⟩
  rintro rfl
  exact absurd h.1 (by decide)

/-- A command whose arguments are short words is dispatched on its words. -/
theorem sendCommand_eq_dispatch (c : Config H) (command : Command) (words : List (List Char))
    (hfirst : command.command ∈ commandWords)
    (htext : joinWords ' ' command.command.toList (command.argumentList.map String.toList) =
      joinWords ' ' command.command.toList words)
    (hw : ∀ w ∈ words, IsWord w ∧ w.length ≤ 60) (hn : words.length ≤ 12) :
    sendCommand c command =
      (dispatch c (command.command :: words.map String.ofList)).map Prod.fst := by
  have hf := isWord_of_commandWords hfirst
  have hflen : command.command.toList.length ≤ 60 := by
    simp only [commandWords, List.mem_cons, List.not_mem_nil, or_false] at hfirst
    rcases hfirst with h | h | h | h | h <;> rw [h] <;> decide
  have hplain : ∀ x ∈ joinWords ' ' command.command.toList words, x ≠ '\n' ∧ x ≠ '\x00' :=
    forall_mem_joinWords ⟨by decide, by decide⟩ (fun x hx ↦ isWordChar_plain (hf.chars x hx))
      (fun w h x hx ↦ isWordChar_plain ((hw w h).1.chars x hx))
  have hlen : (joinWords ' ' command.command.toList words).length ≤ 1024 := by
    have hl := length_joinWords_le ' ' hflen fun w h ↦ (hw w h).2
    omega
  unfold sendCommand
  rw [Command.toList_apply, htext, dataEventHandle_line c _ (fun x hx ↦ (hplain x hx).1)
    (fun x hx ↦ (hplain x hx).2) hlen, cliProcess_joinWords c _ _ hf (fun w h ↦ (hw w h).1)
    (by omega) (isComment_commandWords hfirst words), String.ofList_toList]
  cases dispatch c (command.command :: words.map String.ofList) with
  | error e => rfl
  | ok r => rfl

/-- A printed `int` is a short word. -/
theorem isWord_toString {i : Int} (h : IsInt i) :
    IsWord (toString i).toList ∧ (toString i).toList.length ≤ 20 := by
  obtain ⟨h1, h2⟩ := h
  rw [toList_toString_int]
  have hl := length_decimalChars_le (i := i) (k := 10) (by decide) (by omega)
  exact ⟨isWord_decimalChars i, by omega⟩

end Nflambda.Deploy
